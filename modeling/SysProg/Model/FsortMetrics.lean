import SysProg.Model.Memory

/-! # Strings and their metrics

The comparison of strings and the metrics of `posix/lib/fsort-metrics.c` for them, with
`double` read as exact rationals. -/

namespace SysProg

/-- The bytes of a C string before its NUL byte. -/
structure CString where
  bytes : List UInt8
  no_nul : 0 ∉ bytes
  deriving DecidableEq

/-- `strcmp` compares bytes as `unsigned char`; its caller reads the sign only. -/
def strcmp : List UInt8 → List UInt8 → ℤ
  | [], [] => 0
  | [], b :: _ => -b.toNat
  | a :: _, [] => a.toNat
  | a :: left, b :: right => if a = b then strcmp left right else (a.toNat : ℤ) - b.toNat

def compareStrFull (left right : CString) : ℤ :=
  strcmp left.bytes right.bytes

namespace FsortMetrics

/-- `while (*str_ptr != '\000' && factor > 0)` -/
def metricLoop (factors : UInt8 → ℚ) (divisor : ℚ) : List UInt8 → ℚ → ℚ → ℚ
  | [], result, _ => result
  | c :: rest, result, factor =>
      if factor > 0 then
        metricLoop factors divisor rest (result + factors c * factor) (factor / divisor)
      else result

def metricStrFull (str : CString) : ℚ :=
  metricLoop (fun c => c.toNat) 256 str.bytes 0 1

/-- The table of the source in units of the fourteenth decimal place. -/
def factorsPrintablePref : List ℕ := [
  0, 1525879479, 3051758959, 4577638438, 6103517918, 7629397397,
  9155276877, 10681156356, 12207035836, 13732915315, 15258794795, 16784674274,
  18310553754, 19836433233, 21362312713, 22888192192, 24414071672, 25939951151,
  27465830631, 28991710110, 30517589590, 32043469069, 33569348549, 35095228028,
  36621107507, 38146986987, 39672866466, 41198745946, 42724625425, 44250504905,
  45776384384, 47302263864, 48828143343, 50354022823, 51879902302, 53405781782,
  54931661261, 56457540741, 57983420220, 59509299700, 61035179179, 62561058659,
  64086938138, 65612817618, 67138697097, 68664576577, 70190456056, 71716335536,
  73242215015, 1008840232255, 2252730911846, 2624885109458, 2916173248062, 3311955547312,
  3734791091925, 3999222641010, 4222218607791, 4835701212884, 5400797333605, 5402323213085,
  5403849092564, 5405374972044, 5406900851523, 5408426731003, 5409952610482, 5411478489962,
  7804261683058, 8599070449640, 9355132788249, 11307995878629, 14272334781577, 14696780486746,
  15155415561712, 23588542779576, 25177800974819, 25443373585137, 25741986663918, 27920952034068,
  28531939527309, 29111878590850, 29569480405958, 30393309956354, 30652137140560, 31165293578216,
  31996059003822, 32854736819094, 33393875348439, 33736768005829, 34060303129434, 34465973101577,
  34675279926935, 34898157312203, 34899683191682, 34901209071162, 34902734950641, 34904260830121,
  34905786709600, 34907312589080, 36351831756574, 36895457109865, 38174027165509, 39356798058174,
  41618644719726, 43040565778732, 43650632713554, 44377004919803, 45835862650345, 46006029736043,
  46312971941154, 47745594736779, 48451929607230, 49960425624791, 51277328543128, 52262072227765,
  52426009373931, 54047578581658, 55508601486507, 58166108925758, 59316007258770, 59789587851198,
  60161137381091, 60704996630701, 61071073444062, 61253040207061, 61254566086541, 61256091966020,
  61257617845500, 61259143724979, 61260669604459, 61262195483938, 61263721363418, 61265247242897,
  61266773122377, 61268299001856, 61269824881336, 61271350760815, 61272876640295, 61274402519774,
  61275928399254, 61277454278733, 61278980158213, 61280506037692, 61282031917172, 61283557796651,
  61285083676131, 61286609555610, 61288135435090, 61289661314569, 61291187194048, 61292713073528,
  61294238953007, 61295764832487, 61297290711966, 61298816591446, 61300342470925, 61301868350405,
  61303394229884, 61304920109364, 61306445988843, 61307971868323, 61309497747802, 61584179901080,
  61691223400937, 61814057515713, 61936180468076, 62087655448482, 62199871781043, 62333659495653,
  62450845471657, 62712529719002, 62824516401965, 62967161142977, 63087295649955, 63269738045694,
  63374922788489, 63480804320180, 63604719062084, 63871517994723, 63986371867622, 64104754765573,
  64227696355054, 64468277012989, 64606187640232, 64982074378827, 65213260963504, 65675410036663,
  65953058034469, 66409042175593, 66578761722244, 66933571658438, 67094150955071, 67688576890218,
  68060717367655, 69483556045042, 70097941241658, 70457310522723, 71099146523111, 71550172127601,
  71877962465527, 72390741598367, 73332090655691, 73645964162622, 73956641522083, 74139473309459,
  74280927661941, 74449846538371, 74601352879178, 74756899484896, 74900490264652, 75283874425627,
  75476278648538, 75866122398643, 76031021590424, 76193379283093, 76369561685582, 76541005727582,
  76688727913413, 77055770039097, 77206333281198, 77371745346193, 77604645319409, 77771732225785,
  77926337366151, 78139710263417, 78703686883180, 79161628109289, 79366316462354, 79609531393918,
  79795144783471, 80024979277554, 80205516855642, 80450388008350, 80731519297291, 83378463508357,
  84354011735604, 84602818291885, 85111909964317, 85447986634694, 85743753430473, 86027124374672,
  86448852178477, 87114771006308, 87333857376512, 87691629890527, 87957578825648, 88158237040598,
  88377222142843, 88883026199971, 89223288177112, 89839208073320, 90142693447634, 90480110775126,
  90888502568683, 91294999018044, 91763264675954, 92618502647313]

def metricBinaryPrintablePref (str : CString) : ℚ :=
  metricLoop (fun c => (factorsPrintablePref[c.toNat]?.getD 0 : ℚ) / 10 ^ 14) 65536 str.bytes 0 1

end FsortMetrics

end SysProg
