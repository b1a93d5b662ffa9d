import Mc68000.Session.Image
import Mathlib.Data.List.GetD
import Mathlib.Tactic.IntervalCases

/-!
# The register image, written and read

Writing and reading undo each other. A register file comes back with the status that SR stands for
and with no more pending than STOP; bytes come back with one mark for a stopped processor and with
zero for padding. Everything else is kept to the bit, in either direction.
-/

namespace Mc68000.Registers
open BigEndian

theorem longsOfBytes_longBytes (l : UInt32) (rest : List UInt8) :
    longsOfBytes (longBytes l ++ rest) = l :: longsOfBytes rest := by
  simp only [longBytes, wordBytes, List.cons_append, List.nil_append, longsOfBytes,
    word_highByte_lowByte, long_highWord_lowWord]

theorem longsOfBytes_flatMap (ls : List UInt32) : longsOfBytes (ls.flatMap longBytes) = ls := by
  induction ls with
  | nil => rfl
  | cons l ls ih => rw [List.flatMap_cons, longsOfBytes_longBytes, ih]

theorem longBytes_long (a b c d : UInt8) :
    longBytes (long (word a b) (word c d)) = [a, b, c, d] := by
  rw [longBytes, highWord_long, lowWord_long, wordBytes, wordBytes, highByte_word, lowByte_word,
    highByte_word, lowByte_word]
  rfl

theorem flatMap_longsOfBytes {bytes : List UInt8} {n : Nat} (h : bytes.length = 4 * n) :
    (longsOfBytes bytes).flatMap longBytes = bytes := by
  induction n generalizing bytes with
  | zero =>
    rw [List.length_eq_zero_iff.mp h]
    rfl
  | succ n ih =>
    match bytes, h with
    | a :: b :: c :: d :: rest, h =>
      have hrest : rest.length = 4 * n := by
        simp only [List.length_cons] at h
        omega
      rw [longsOfBytes, List.flatMap_cons, longBytes_long, ih hrest]
      rfl

theorem length_flatMap_longBytes (ls : List UInt32) :
    (ls.flatMap longBytes).length = 4 * ls.length := by
  induction ls with
  | nil => rfl
  | cons l ls ih =>
    have hl : (longBytes l).length = 4 := rfl
    rw [List.flatMap_cons, List.length_append, ih, hl, List.length_cons]
    omega

theorem getD_flatMap_longBytes (ls : List UInt32) (i : Nat) :
    (ls.flatMap longBytes).getD (4 * i + 2) 0 = highByte (lowWord (ls.getD i 0)) := by
  induction ls generalizing i with
  | nil =>
    simp only [List.flatMap_nil, List.getD_nil]
    rfl
  | cons l ls ih =>
    have hl : (longBytes l).length = 4 := rfl
    rw [List.flatMap_cons]
    cases i with
    | zero => rfl
    | succ i =>
      have hplace : 4 * (i + 1) + 2 - 4 = 4 * i + 2 := by omega
      rw [List.getD_append_right _ _ _ _ (by rw [hl]; omega), hl, hplace, ih, List.getD_cons_succ]

theorem set_flatMap_longBytes (ls : List UInt32) (i : Nat) (y z : UInt8) :
    ((ls.flatMap longBytes).set (4 * i + 2) y).set (4 * i + 3) z =
      (ls.set i (long (highWord (ls.getD i 0)) (word y z))).flatMap longBytes := by
  induction ls generalizing i with
  | nil => simp
  | cons l ls ih =>
    have hl : (longBytes l).length = 4 := rfl
    cases i with
    | zero =>
      have hbytes : longBytes (long (highWord l) (word y z)) =
          wordBytes (highWord l) ++ [y, z] := by
        rw [longBytes, highWord_long, lowWord_long, wordBytes, wordBytes, highByte_word,
          lowByte_word]
      rw [List.getD_cons_zero, List.set_cons_zero, List.flatMap_cons, List.flatMap_cons, hbytes]
      rfl
    | succ i =>
      have hthird : 4 * (i + 1) + 2 - 4 = 4 * i + 2 := by omega
      have hfourth : 4 * (i + 1) + 3 - 4 = 4 * i + 3 := by omega
      rw [List.getD_cons_succ, List.set_cons_succ, List.flatMap_cons, List.flatMap_cons, ← ih,
        List.set_append_right _ _ (by rw [hl]; omega),
        List.set_append_right _ _ (by rw [hl]; omega), hl, hthird, hfourth]

section
variable (r : Registers) {i : Nat}

theorem length_imageLongs : r.imageLongs.length = 26 := by simp [imageLongs]

theorem length_image : r.image.length = imageSize := by
  rw [image, length_flatMap_longBytes, length_imageLongs]
  rfl

theorem imageLongs_data (h : i < 8) : r.imageLongs.getD i 0 = r.d[i] := by
  rw [imageLongs, List.getD_append _ _ _ _ (by simp; omega), List.getD_append _ _ _ _ (by simpa),
    List.getD_eq_getElem _ _ (by simpa)]
  simp

theorem imageLongs_address (h : i < 8) : r.imageLongs.getD (8 + i) 0 = r.a[i] := by
  rw [imageLongs, List.getD_append _ _ _ _ (by simp; omega),
    List.getD_append_right _ _ _ _ (by simp), List.getD_eq_getElem _ _ (by simpa)]
  simp

theorem imageLongs_rest (i : Nat) : r.imageLongs.getD (16 + i) 0 =
    [r.usp, r.isp, r.pc, r.stateLong, r.vbr, r.sfc, r.dfc, r.fpcr, r.fpsr, r.fpiar].getD i 0 := by
  rw [imageLongs, List.getD_append_right _ _ _ _ (by simp)]
  simp

theorem longBytes_stateLong :
    longBytes r.stateLong = wordBytes r.sr ++ [if r.stopped then 1 else 0, 0] := by
  rw [longBytes, stateLong, highWord_long, lowWord_long]
  cases r.stopped <;> rfl

/-- The format: where every field is, and how wide. -/
theorem image_eq : r.image =
    r.d.toList.flatMap longBytes ++ r.a.toList.flatMap longBytes ++
      longBytes r.usp ++ longBytes r.isp ++ longBytes r.pc ++
      wordBytes r.sr ++ [if r.stopped then 1 else 0, 0] ++
      longBytes r.vbr ++ longBytes r.sfc ++ longBytes r.dfc ++
      longBytes r.fpcr ++ longBytes r.fpsr ++ longBytes r.fpiar := by
  simp only [image, imageLongs, List.flatMap_append, List.flatMap_cons, List.flatMap_nil,
    longBytes_stateLong, List.append_assoc, List.append_nil]

end

theorem stopped_stateLong (r : Registers) :
    (highByte (lowWord r.stateLong) != 0) = r.stopped := by
  rw [stateLong, lowWord_long]
  cases r.stopped <;> rfl

theorem ofImageLongs_imageLongs (r : Registers) :
    ofImageLongs r.imageLongs =
      { r with
        status := Status.ofWord r.sr
        pending := { Pending.none with stop := r.stopped } } := by
  have hd : (Vector.ofFn fun i : Fin 8 => r.imageLongs.getD i.val 0) = r.d := by
    ext i hi
    rw [Vector.getElem_ofFn, r.imageLongs_data hi]
  have ha : (Vector.ofFn fun i : Fin 8 => r.imageLongs.getD (8 + i.val) 0) = r.a := by
    ext i hi
    rw [Vector.getElem_ofFn, r.imageLongs_address hi]
  have hsr : highWord (r.imageLongs.getD 19 0) = r.sr := by
    rw [r.imageLongs_rest 3]
    exact highWord_long _ _
  have hstopped : (highByte (lowWord (r.imageLongs.getD 19 0)) != 0) = r.stopped := by
    rw [r.imageLongs_rest 3]
    exact r.stopped_stateLong
  simp only [ofImageLongs, hd, ha, hsr, hstopped]
  rw [r.imageLongs_rest 0, r.imageLongs_rest 1, r.imageLongs_rest 2, r.imageLongs_rest 4,
    r.imageLongs_rest 5, r.imageLongs_rest 6, r.imageLongs_rest 7, r.imageLongs_rest 8,
    r.imageLongs_rest 9]
  rfl

theorem ofImage_image (r : Registers) : ofImage r.image = .ok { r with
    status := Status.ofWord r.sr
    pending := { Pending.none with stop := r.stopped } } := by
  rw [ofImage, if_pos r.length_image, image, longsOfBytes_flatMap, ofImageLongs_imageLongs]

theorem ofImage_eq_error_iff (bytes : List UInt8) (e : SessionError) :
    ofImage bytes = .error e ↔ bytes.length ≠ 104 ∧ e = .badLength bytes.length := by
  simp only [ofImage, imageSize]
  by_cases hlength : bytes.length = 104
  · simp [hlength]
  · simp [hlength, eq_comm]

/-- The long of state with nothing in it but SR and whether the processor is stopped. -/
def canonicalState (l : UInt32) : UInt32 :=
  long (highWord l) (word (if highByte (lowWord l) = 0 then 0 else 1) 0)

theorem stateLong_ofImageLongs (ls : List UInt32) :
    (ofImageLongs ls).stateLong = canonicalState (ls.getD 19 0) := by
  simp only [stateLong, ofImageLongs, canonicalState]
  by_cases h : highByte (lowWord (ls.getD 19 0)) = 0
  · simp only [h, bne_self_eq_false, Bool.false_eq_true, if_false, if_true]
    rfl
  · simp only [h, bne_iff_ne, ne_eq, not_false_eq_true, if_false, if_true]
    rfl

theorem imageLongs_ofImageLongs {ls : List UInt32} (h : ls.length = 26) :
    (ofImageLongs ls).imageLongs = ls.set 19 (canonicalState (ls.getD 19 0)) := by
  apply List.ext_getElem
  · rw [length_imageLongs, List.length_set, h]
  intro i hi hi'
  have hlt : i < ls.length := by rwa [List.length_set] at hi'
  have hend : i < 26 := hlt.trans_eq h
  rw [List.getElem_set, ← List.getD_eq_getElem _ 0 hi, ← List.getD_eq_getElem _ 0 hlt]
  by_cases hdata : i < 8
  · rw [imageLongs_data _ hdata, if_neg (by omega)]
    exact Vector.getElem_ofFn hdata
  by_cases haddress : i < 16
  · obtain ⟨j, rfl⟩ : ∃ j, i = 8 + j := ⟨i - 8, by omega⟩
    have hj : j < 8 := by omega
    rw [imageLongs_address _ hj, if_neg (by omega)]
    exact Vector.getElem_ofFn hj
  · obtain ⟨j, rfl⟩ : ∃ j, i = 16 + j := ⟨i - 16, by omega⟩
    have hj : j < 10 := by omega
    rw [imageLongs_rest, stateLong_ofImageLongs]
    interval_cases j <;> rfl

def canonicalImage (bytes : List UInt8) : List UInt8 :=
  (bytes.set 78 (if bytes.getD 78 0 = 0 then 0 else 1)).set 79 0

theorem image_ofImage {bytes : List UInt8} {r : Registers} (h : ofImage bytes = .ok r) :
    r.image = canonicalImage bytes := by
  rw [ofImage] at h
  split at h
  · rename_i hsize
    have hbytes : (longsOfBytes bytes).flatMap longBytes = bytes :=
      flatMap_longsOfBytes (n := 26) hsize
    have hlongs : (longsOfBytes bytes).length = 26 := by
      have hlength := length_flatMap_longBytes (longsOfBytes bytes)
      rw [hbytes, hsize, imageSize] at hlength
      omega
    generalize longsOfBytes bytes = ls at h hbytes hlongs
    cases h
    have hflag : bytes.getD 78 0 = highByte (lowWord (ls.getD 19 0)) := by
      rw [← getD_flatMap_longBytes ls 19, hbytes]
    rw [image, imageLongs_ofImageLongs hlongs, canonicalState, ← hflag,
      ← set_flatMap_longBytes ls 19, hbytes]
    rfl
  · cases h

/-- Bytes that are what is written for them. -/
structure IsCanonical (bytes : List UInt8) : Prop where
  length : bytes.length = 104
  stopped : bytes.getD 78 0 = 0 ∨ bytes.getD 78 0 = 1
  padding : bytes.getD 79 0 = 0

/-- Nothing of the registers but what the image has. -/
structure IsImaged (r : Registers) : Prop where
  status : r.status = Status.ofWord r.sr
  pending : r.pending = { Pending.none with stop := r.stopped }

theorem canonicalImage_of_isCanonical {bytes : List UInt8} (h : IsCanonical bytes) :
    canonicalImage bytes = bytes := by
  obtain ⟨hlength, hstopped, hpadding⟩ := h
  have hflag : (if bytes.getD 78 0 = 0 then 0 else 1) = bytes.getD 78 0 := by
    rcases hstopped with h | h <;> rw [h] <;> rfl
  rw [canonicalImage, hflag, List.getD_eq_getElem _ _ (by omega), List.set_getElem_self,
    ← hpadding, List.getD_eq_getElem _ _ (by omega), List.set_getElem_self]

theorem isCanonical_canonicalImage {bytes : List UInt8} (h : bytes.length = 104) :
    IsCanonical (canonicalImage bytes) := by
  constructor
  · rw [canonicalImage, List.length_set, List.length_set, h]
  · have hflag : (canonicalImage bytes).getD 78 0 = if bytes.getD 78 0 = 0 then 0 else 1 := by
      simp [canonicalImage, h]
    rw [hflag]
    split
    · exact .inl rfl
    · exact .inr rfl
  · simp [canonicalImage, h]

theorem isCanonical_image (r : Registers) : IsCanonical r.image := by
  -- Writing does not look at the status and at what is pending.
  have hread := image_ofImage r.ofImage_image
  have hagain : r.image = canonicalImage r.image := hread
  rw [hagain]
  exact isCanonical_canonicalImage r.length_image

theorem isImaged_of_ofImage {bytes : List UInt8} {r : Registers} (h : ofImage bytes = .ok r) :
    r.IsImaged := by
  rw [ofImage] at h
  split at h
  · cases h
    exact ⟨rfl, rfl⟩
  · cases h

theorem ofImage_image_of_isImaged {r : Registers} (h : r.IsImaged) :
    ofImage r.image = .ok r := by
  rw [ofImage_image, ← h.status, ← h.pending]

/-- Reading takes any 104 bytes and no other text; what is read is written again but for the mark of
a stopped processor and the padding, and what is written is read again but for the status and what
is pending. So canonical bytes and register files that are all image are the same thing. -/
theorem image_codec :
    (∀ r : Registers, r.image =
      r.d.toList.flatMap longBytes ++ r.a.toList.flatMap longBytes ++
        longBytes r.usp ++ longBytes r.isp ++ longBytes r.pc ++
        wordBytes r.sr ++ [if r.stopped then 1 else 0, 0] ++
        longBytes r.vbr ++ longBytes r.sfc ++ longBytes r.dfc ++
        longBytes r.fpcr ++ longBytes r.fpsr ++ longBytes r.fpiar) ∧
    (∀ bytes,
      (bytes.length = 104 ∧ ∃ r, ofImage bytes = .ok r ∧ r.image = canonicalImage bytes) ∨
        (bytes.length ≠ 104 ∧ ofImage bytes = .error (.badLength bytes.length))) ∧
    (∀ r : Registers, ofImage r.image = .ok { r with
      status := Status.ofWord r.sr
      pending := { Pending.none with stop := r.stopped } }) ∧
    ∀ (bytes : List UInt8) (r : Registers),
      (ofImage bytes = .ok r ∧ IsCanonical bytes) ↔ (r.image = bytes ∧ r.IsImaged) := by
  refine ⟨image_eq, fun bytes => ?_, ofImage_image, fun bytes r => ⟨?_, ?_⟩⟩
  · by_cases hlength : bytes.length = 104
    · have hread : ofImage bytes = .ok (ofImageLongs (longsOfBytes bytes)) := if_pos hlength
      exact .inl ⟨hlength, _, hread, image_ofImage hread⟩
    · exact .inr ⟨hlength, (ofImage_eq_error_iff _ _).mpr ⟨hlength, rfl⟩⟩
  · rintro ⟨hread, hcanonical⟩
    exact ⟨(image_ofImage hread).trans (canonicalImage_of_isCanonical hcanonical),
      isImaged_of_ofImage hread⟩
  · rintro ⟨rfl, himaged⟩
    exact ⟨ofImage_image_of_isImaged himaged, r.isCanonical_image⟩

end Mc68000.Registers
