import SysProg.Library.Slices
import SysProg.Model.Psort

/-! # The array and its table of segments

While the threads run, the array consists of the sorted segments one behind the other.
A list of cells says what each segment holds; a segment that has been merged into
another one is `none`. -/

namespace SysProg.Psort

open List

variable {α : Type}

/-- The table of the cells, the first of which starts at `off`. -/
def layout : ℕ → List (Option (List α)) → List SortableData
  | _, [] => []
  | off, none :: cells => ⟨none, 0⟩ :: layout off cells
  | off, some xs :: cells => ⟨some off, xs.length⟩ :: layout (off + xs.length) cells

def ofCells (cells : List (Option (List α))) : Shared α :=
  ⟨contents cells, layout 0 cells⟩

@[simp] theorem layout_length (off : ℕ) (cells : List (Option (List α))) :
    (layout off cells).length = cells.length := by
  induction cells generalizing off with
  | nil => rfl
  | cons cell cells ih => cases cell <;> simp [layout, ih]

theorem layout_append (off : ℕ) (front back : List (Option (List α))) :
    layout off (front ++ back) =
      layout off front ++ layout (off + (contents front).length) back := by
  induction front generalizing off with
  | nil => rfl
  | cons cell front ih =>
      cases cell with
      | none => simp [layout, ih]
      | some xs => simp [layout, ih, Nat.add_assoc]

theorem layout_replicate (off k : ℕ) :
    layout off (List.replicate k (none : Option (List α))) =
      List.replicate k ⟨none, 0⟩ := by
  induction k with
  | zero => rfl
  | succ k ih => simp [List.replicate_succ, layout, ih]

/-- Where a live segment lies. -/
theorem layout_getElem? {off k ptr : ℕ} {cells : List (Option (List α))}
    {segment : SortableData} (h : (layout off cells)[k]? = some segment)
    (hptr : segment.base = some ptr) :
    ∃ xs, cells[k]? = some (some xs) ∧ segment.nmemb = xs.length ∧
      ptr = off + (contents (cells.take k)).length := by
  induction cells generalizing off k with
  | nil => simp [layout] at h
  | cons cell cells ih =>
      cases cell with
      | none =>
          cases k with
          | zero =>
              obtain rfl : (⟨none, 0⟩ : SortableData) = segment := by simpa [layout] using h
              simp at hptr
          | succ k => simpa using ih (by simpa [layout] using h)
      | some xs =>
          cases k with
          | zero =>
              obtain rfl : (⟨some off, xs.length⟩ : SortableData) = segment := by
                simpa [layout] using h
              obtain rfl : off = ptr := by simpa using hptr
              exact ⟨xs, rfl, rfl, rfl⟩
          | succ k =>
              obtain ⟨ys, hys, hn, hptr'⟩ := ih (by simpa [layout] using h)
              refine ⟨ys, by simpa using hys, hn, ?_⟩
              simp only [List.take_succ_cons, contents_cons_some, List.length_append]
              omega

/-- A live segment ends where the next one starts or before. -/
theorem layout_separate {off k k' ptr ptr' : ℕ} {cells : List (Option (List α))}
    {segment segment' : SortableData} (hk : k < k')
    (h : (layout off cells)[k]? = some segment) (hptr : segment.base = some ptr)
    (h' : (layout off cells)[k']? = some segment') (hptr' : segment'.base = some ptr') :
    ptr + segment.nmemb ≤ ptr' := by
  obtain ⟨xs, hxs, hn, rfl⟩ := layout_getElem? h hptr
  obtain ⟨ys, hys, hn', rfl⟩ := layout_getElem? h' hptr'
  have htake : cells.take k' = cells.take k ++ some xs :: (cells.take k').drop (k + 1) := by
    have hlt : k < (cells.take k').length := by
      rw [List.length_take]
      have := (List.getElem?_eq_some_iff.mp hxs).1
      omega
    have hget : (cells.take k')[k] = some xs := by
      rw [List.getElem_take]
      exact (List.getElem?_eq_some_iff.mp hxs).2
    conv_lhs => rw [← List.take_append_drop k (cells.take k'), List.take_take,
      Nat.min_eq_left hk.le, List.drop_eq_getElem_cons hlt, hget]
  rw [htake, hn]
  simp only [contents_append, contents_cons_some, List.length_append]
  omega

/-! ## The actions of the threads -/

/-- A live segment in the table and in the array. -/
theorem segment_spec (front back : List (Option (List α))) (xs : List α) {idx : ℕ}
    (hidx : front.length = idx) :
    (ofCells (front ++ some xs :: back)).segments[idx]? =
        some ⟨some (contents front).length, xs.length⟩ ∧
      loadRange (ofCells (front ++ some xs :: back)).base (contents front).length xs.length =
        .ok xs := by
  constructor
  · have hlength : (layout 0 front).length = idx := by rw [layout_length, hidx]
    simp only [ofCells]
    rw [layout_append, layout, ← hlength, Nat.zero_add]
    simp
  · have hbase : (ofCells (front ++ some xs :: back)).base =
        contents front ++ xs ++ contents back := by
      simp [ofCells]
    rw [hbase]
    exact loadRange_append rfl rfl

/-- Two live segments with none in between. -/
theorem pair_spec (front back : List (Option (List α))) (xs ys : List α) {idx otherIdx k : ℕ}
    (hidx : front.length = idx) (hother : otherIdx = idx + 1 + k) :
    (ofCells (front ++ some xs :: (List.replicate k none ++ some ys :: back))).segments[otherIdx]? =
        some ⟨some ((contents front).length + xs.length), ys.length⟩ ∧
      loadRange (ofCells (front ++ some xs :: (List.replicate k none ++ some ys :: back))).base
        ((contents front).length + xs.length) ys.length = .ok ys := by
  have h := segment_spec (front ++ some xs :: List.replicate k none) back ys
    (show _ = otherIdx by simp; omega)
  simpa using h

/-- The sort of one segment replaces its cell. -/
theorem sortSegment_eq {p : Params α} {front back : List (Option (List α))}
    {xs xs' : List α} {idx : ℕ} (hidx : front.length = idx)
    (hsort : sequentialSort p xs = .ok xs') (hlength : xs'.length = xs.length) :
    sortSegment p idx (ofCells (front ++ some xs :: back)) =
      .ok (ofCells (front ++ some xs' :: back)) := by
  have hload := load_eq_ok (segment_spec front back xs hidx).1
  have hbase : (ofCells (front ++ some xs :: back)).base =
      contents front ++ xs ++ contents back := by
    simp [ofCells]
  have hseg : layout 0 (front ++ some xs' :: back) = layout 0 (front ++ some xs :: back) := by
    simp only [layout_append, layout, hlength]
  simp only [sortSegment, hload, Run.ok_bind, segmentBase, hbase,
    onSegment_append rfl rfl hsort hlength]
  simp only [ofCells, hseg]
  simp

/-- A merge puts the merged segments into the first of their cells. -/
theorem mergeSegments_eq {p : Params α} {front back : List (Option (List α))}
    {xs ys zs : List α} {idx otherIdx k : ℕ} (hidx : front.length = idx)
    (hother : otherIdx = idx + 1 + k) (hmerge : mergeLoop p.compare xs ys 0 0 [] = zs)
    (hlength : zs.length = xs.length + ys.length) :
    mergeSegments p idx otherIdx
        (ofCells (front ++ some xs :: (List.replicate k none ++ some ys :: back))) =
      .ok (ofCells (front ++ some zs :: (List.replicate k none ++ none :: back))) := by
  obtain ⟨hsegment, hleft⟩ := segment_spec front
    (List.replicate k none ++ some ys :: back) xs hidx
  obtain ⟨hsegment', hright⟩ := pair_spec front back xs ys hidx hother
  have hstore : storeRange (ofCells (front ++ some xs ::
      (List.replicate k none ++ some ys :: back))).base (contents front).length zs =
        .ok (contents front ++ zs ++ contents back) := by
    have hbase : (ofCells (front ++ some xs ::
        (List.replicate k none ++ some ys :: back))).base =
          contents front ++ (xs ++ ys) ++ contents back := by
      simp [ofCells]
    rw [hbase]
    exact storeRange_append rfl (by simpa using hlength)
  have hsegments : ((layout 0 (front ++ some xs ::
      (List.replicate k none ++ some ys :: back))).set idx
        ⟨some (contents front).length, xs.length + ys.length⟩).set otherIdx ⟨none, 0⟩ =
      layout 0 (front ++ some zs :: (List.replicate k none ++ none :: back)) := by
    simp only [layout_append, layout, layout_replicate, contents_replicate]
    rw [set_pair (by simpa using hidx) (by simpa using hother)]
    simp [hlength, Nat.add_assoc]
  simp only [mergeSegments, load_eq_ok hsegment, load_eq_ok hsegment', Run.ok_bind, segmentBase,
    hleft, hright, hmerge, hstore]
  simp only [ofCells] at hsegments ⊢
  rw [hsegments]
  simp

end SysProg.Psort
