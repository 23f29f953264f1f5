import SysProg.Model.Square
import SysProg.Verification.Text.Decimal
import SysProg.Verification.Transmission.Frames

/-! # What the handler reads and writes

The calls of the handler are calls of the transmission protocol: it expects the frame of a
request and it offers the frame of a reply. -/

namespace SysProg.Square

open Transmission ByteStream

/-- The block in which `read_and_store_string` returns a message. -/
def stored (msg : Bytes) : List (Option UInt8) :=
  (msg ++ [0]).map some

variable (server : Server)

/-- The handler is to read the rest of the frame of `msg`. -/
def Server.Receives (msg : Bytes) (handler : HandleTcpClient) (rest : Bytes) : Prop :=
  ∃ call, server.afterReceive call = handler ∧ ReadAndStore.Expects msg call rest

/-- The handler is to write the rest of a reply. -/
def Replies (handler : HandleTcpClient) (rest : Bytes) : Prop :=
  ∃ call, HandleTcpClient.afterReply call = handler ∧ call.Rest rest

/-- The handler is to write the rest of the last frame. -/
def Server.EndsTransmission (handler : HandleTcpClient) (rest : Bytes) : Prop :=
  ∃ call, server.afterEndOfTransmission call = handler ∧ call.Rest rest

theorem reader_asked_afterReceive (call : ReadAndStore) :
    server.reader.asked (server.afterReceive call) = call.asked := by
  cases call with
  | returned ulen result =>
      simp only [Server.afterReceive]
      split
      · rfl
      · cases result with
        | none => rfl
        | some buffer =>
            dsimp only
            split <;> rfl
  | header => rfl
  | payload ulen buffer ptr restLen => rfl
  | died => rfl
  | fault => rfl

theorem reader_expects {msg : Bytes} (hlt : msg.length < 2 ^ 32 - 1) :
    server.reader.Expects (server.Receives msg) :=
  embed_readAndStore server.afterReceive (fun call _ => reader_asked_afterReceive server call) rfl (fun _ => rfl)
    (fun _ _ _ _ _ => rfl) hlt

theorem replies_offers : server.writer.Offers Replies :=
  embed_writeString HandleTcpClient.afterReply (fun call => by cases call <;> rfl)
    (fun _ _ => trivial) (fun _ _ _ => rfl) (fun _ _ _ _ => rfl)

theorem endsTransmission_offers : server.writer.Offers server.EndsTransmission :=
  embed_writeString server.afterEndOfTransmission (fun call => by cases call <;> rfl)
    (fun _ _ => trivial) (fun _ _ _ => rfl) (fun _ _ _ _ => rfl)

/-! ## The end of a call -/

variable {server : Server}

theorem receives_nil {msg : Bytes} {handler : HandleTcpClient} :
    server.Receives msg handler [] ↔
      handler = server.afterReceive (.returned msg.length (some (stored msg))) := by
  constructor
  · rintro ⟨call, rfl, hcall⟩
    rw [expects_nil.mp hcall]
    rfl
  · rintro rfl
    exact ⟨_, rfl, expects_nil.mpr rfl⟩

theorem replies_nil {handler : HandleTcpClient} :
    Replies handler [] ↔ handler = .receive .header := by
  constructor
  · rintro ⟨call, rfl, hcall⟩
    rw [rest_nil.mp hcall]
    rfl
  · rintro rfl
    exact ⟨.returned, rfl, rfl⟩

theorem endsTransmission_nil {handler : HandleTcpClient} :
    server.EndsTransmission handler [] ↔ handler = .closed server.report := by
  constructor
  · rintro ⟨call, rfl, hcall⟩
    rw [rest_nil.mp hcall]
    rfl
  · rintro rfl
    exact ⟨.returned, rfl, rfl⟩

theorem length_square (buffer : List (Option UInt8)) : (square buffer).length = 12 :=
  length_format12d (isInt_int32 _)

theorem nul_notMem_square (buffer : List (Option UInt8)) : 0 ∉ square buffer :=
  nul_notMem_format12d _

/-- The reply to a request fits into the buffer and is sent as a frame. -/
theorem replies_square (hsize : 13 ≤ server.RCVBUFSIZE) {msg : Bytes} (hne : msg ≠ []) :
    Replies (server.afterReceive (.returned msg.length (some (stored msg))))
      (frame (square (stored msg))) := by
  have hlength : (square (stored msg) ++ [0]).length ≤ server.RCVBUFSIZE := by
    rw [List.length_append, length_square]
    exact hsize
  refine ⟨writeString (square (stored msg) ++ [0]) (square (stored msg)).length, ?_, ?_⟩
  · simp only [Server.afterReceive, List.length_eq_zero_iff, if_neg hne, if_pos hlength,
      strlen_append_nul (nul_notMem_square _) []]
    have hheader : ∀ str : Bytes, writeString (str ++ [0]) 12 = .header (str ++ [0]) 12 :=
      fun str => rfl
    rw [length_square, hheader]
    rfl
  · apply writeString_rest _ (.inl rfl)
    rw [length_square]
    norm_num

theorem endsTransmission_writeEot :
    server.EndsTransmission (.endOfTransmission writeEot) (frame []) :=
  ⟨writeEot, rfl, writeEot_rest⟩

end SysProg.Square
