import Mc68000.Proofs.RamBytes

/-!
# Flat memory as a list of stores

Whatever is written to memory, loaded or poked is a sequence of bytes, each at an address of its
own. A byte of memory is the last one that went to its cell, and wide accesses are big-endian
compositions of such bytes. The limit hides bytes from reads and keeps writes away; loading and
peeking do not know it.
-/

namespace Mc68000

namespace BigEndian

def value (bs : List UInt8) : Nat := bs.foldl (fun n b => 256 * n + b.toNat) 0

theorem value_word (high low : UInt8) : value [high, low] = (word high low).toNat := by
  simp [value, toNat_word]

theorem value_long (a b c d : UInt8) :
    value [a, b, c, d] = (long (word a b) (word c d)).toNat := by
  simp only [value, toNat_long, toNat_word, List.foldl_cons, List.foldl_nil]
  omega

theorem value_wordBytes (w : UInt16) : value (wordBytes w) = w.toNat := by
  rw [wordBytes, value_word, word_highByte_lowByte]

theorem value_longBytes (l : UInt32) : value (longBytes l) = l.toNat := by
  simp only [longBytes, wordBytes, List.cons_append, List.nil_append]
  rw [value_long, word_highByte_lowByte, word_highByte_lowByte, long_highWord_lowWord]

end BigEndian

namespace Ram
variable {r : Ram} {xs : List (UInt32 × UInt8)} {size : Nat} {limit : Option UInt32}

inductive Store where
  | writeByte (a : UInt32) (b : UInt8)
  | writeWord (a : UInt32) (w : UInt16)
  | writeLong (a : UInt32) (l : UInt32)
  | load (a : UInt32) (bs : List UInt8)
  | loadWords (a : UInt32) (words : List UInt16)
  | pokeLong (a : UInt32) (l : UInt32)

def Store.perform (r : Ram) : Store → Ram
  | .writeByte a b => Bus.writeByte r a b
  | .writeWord a w => Bus.writeWord r a w
  | .writeLong a l => Bus.writeLong r a l
  | .load a bs => r.load a bs
  | .loadWords a words => r.loadWords a words
  | .pokeLong a l => r.pokeLong a l

def place (a : UInt32) (bs : List UInt8) : List (UInt32 × UInt8) := (span a bs.length).zip bs

def isHidden (limit : Option UInt32) (a : UInt32) : Bool := limit.any fun l => l ≤ a

/-- What comes through to memory with such a limit. -/
def Store.bytes (limit : Option UInt32) : Store → List (UInt32 × UInt8)
  | .writeByte a b => (place a [b]).filter fun x => !isHidden limit x.1
  | .writeWord a w => (place a (BigEndian.wordBytes w)).filter fun x => !isHidden limit x.1
  | .writeLong a l => (place a (BigEndian.longBytes l)).filter fun x => !isHidden limit x.1
  | .load a bs => place a bs
  | .loadWords a words => place a (words.flatMap BigEndian.wordBytes)
  | .pokeLong a l => place a (BigEndian.longBytes l)

/-- The last byte that went to the cell of an address. -/
def lastStored (size : Nat) (xs : List (UInt32 × UInt8)) (a : UInt32) : UInt8 :=
  ((xs.reverse.find? fun x => x.1.toNat % size == a.toNat % size).map Prod.snd).getD 0

theorem lastStored_append_singleton (size : Nat) (xs : List (UInt32 × UInt8)) (x : UInt32 × UInt8)
    (a : UInt32) : lastStored size (xs ++ [x]) a =
      if a.toNat % size = x.1.toNat % size then x.2 else lastStored size xs a := by
  rw [lastStored, List.reverse_append, List.reverse_singleton, List.singleton_append]
  by_cases h : x.1.toNat % size = a.toNat % size
  · rw [List.find?_cons_of_pos (by simpa using h), if_pos h.symm]
    rfl
  · rw [List.find?_cons_of_neg (by simpa using h), if_neg (Ne.symm h)]
    rfl

theorem isUnmapped_eq (r : Ram) (a : UInt32) : r.isUnmapped a = isHidden r.limit a := by
  rw [isUnmapped]
  cases r.limit <;> rfl

theorem place_cons (a : UInt32) (b : UInt8) (bs : List UInt8) :
    place a (b :: bs) = (a, b) :: place (a + 1) bs := rfl

theorem place_longBytes (a l : UInt32) :
    place a (BigEndian.longBytes l) =
      place a (BigEndian.wordBytes (BigEndian.highWord l)) ++
        place (a + 2) (BigEndian.wordBytes (BigEndian.lowWord l)) := by
  have hnext : a + 1 + 1 = a + 2 := by rw [UInt32.add_assoc]; rfl
  rw [← hnext]
  rfl

/-- The bytes of memory are the last ones that were stored. -/
structure Represents (size : Nat) (limit : Option UInt32) (r : Ram) (xs : List (UInt32 × UInt8)) :
    Prop where
  size_eq : r.size = size
  limit_eq : r.limit = limit
  peek_eq : ∀ a, r.peek a = lastStored size xs a

namespace Represents

theorem poke (h : Represents size limit r xs) (a : UInt32) (b : UInt8) :
    Represents size limit (r.poke a b) (xs ++ [(a, b)]) := by
  refine ⟨(size_poke r a b).trans h.size_eq, h.limit_eq, fun x => ?_⟩
  rw [peek_poke, h.size_eq, h.peek_eq, lastStored_append_singleton]

theorem load (h : Represents size limit r xs) (a : UInt32) (bs : List UInt8) :
    Represents size limit (r.load a bs) (xs ++ place a bs) := by
  induction bs generalizing r a xs with
  | nil => simpa [Ram.load, place] using h
  | cons b bs ih =>
    rw [place_cons, List.append_cons]
    exact ih (h.poke a b) (a + 1)

theorem writeByte (h : Represents size limit r xs) (a : UInt32) (b : UInt8) :
    Represents size limit (r.writeByte a b)
      (xs ++ [(a, b)].filter fun x => !isHidden limit x.1) := by
  rw [Ram.writeByte, isUnmapped_eq, h.limit_eq]
  by_cases hidden : isHidden limit a = true
  · rw [if_pos hidden, List.filter_cons_of_neg (by simp [hidden]), List.filter_nil,
      List.append_nil]
    exact ⟨h.size_eq, h.limit_eq, h.peek_eq⟩
  · rw [if_neg hidden, List.filter_cons_of_pos (by simp [hidden])]
    exact h.poke a b

theorem writeWord (h : Represents size limit r xs) (a : UInt32) (w : UInt16) :
    Represents size limit (Bus.writeWord r a w)
      (xs ++ (place a (BigEndian.wordBytes w)).filter fun x => !isHidden limit x.1) := by
  have hbytes := (h.writeByte a (BigEndian.highByte w)).writeByte (a + 1) (BigEndian.lowByte w)
  rw [List.append_assoc, ← List.filter_append] at hbytes
  exact hbytes

theorem writeLong (h : Represents size limit r xs) (a : UInt32) (l : UInt32) :
    Represents size limit (Bus.writeLong r a l)
      (xs ++ (place a (BigEndian.longBytes l)).filter fun x => !isHidden limit x.1) := by
  have hwords := (h.writeWord a (BigEndian.highWord l)).writeWord (a + 2) (BigEndian.lowWord l)
  rw [List.append_assoc, ← List.filter_append, ← place_longBytes] at hwords
  exact hwords

theorem perform (h : Represents size limit r xs) (s : Store) :
    Represents size limit (s.perform r) (xs ++ s.bytes limit) := by
  cases s with
  | writeByte a b => exact h.writeByte a b
  | writeWord a w => exact h.writeWord a w
  | writeLong a l => exact h.writeLong a l
  | load a bs => exact h.load a bs
  | loadWords a words => exact h.load a _
  | pokeLong a l => exact h.load a _

theorem foldl_perform (h : Represents size limit r xs) (stores : List Store) :
    Represents size limit (stores.foldl Store.perform r)
      (xs ++ stores.flatMap (Store.bytes limit)) := by
  induction stores generalizing r xs with
  | nil => simpa using h
  | cons s stores ih =>
    rw [List.foldl_cons, List.flatMap_cons, ← List.append_assoc]
    exact ih (h.perform s)

end Represents

def ofLimit (n : Nat) : Option UInt32 → Ram
  | none => ofSize n
  | some l => (ofSize n).unmappedFrom l

theorem represents_ofLimit (n : Nat) (limit : Option UInt32) :
    Represents (capacity n) limit (ofLimit n limit) [] := by
  have hsize : (ofSize n).size = capacity n := by simp [size, ofSize]
  have hpeek : ∀ a, (ofSize n).peek a = 0 := by simp [peek, ofSize]
  cases limit with
  | none => exact ⟨hsize, rfl, hpeek⟩
  | some l => exact ⟨hsize, rfl, hpeek⟩

def visible (limit : Option UInt32) (contents : UInt32 → UInt8) (a : UInt32) : UInt8 :=
  if isHidden limit a then 0 else contents a

structure SameContents (r r' : Ram) : Prop where
  cells : r'.cells = r.cells
  limit : r'.limit = r.limit

/-- Memory is a list of bytes behind a limit, however wide the accesses. -/
structure IsFlat (r : Ram) (limit : Option UInt32) (contents : UInt32 → UInt8) : Prop where
  peek : ∀ a, r.peek a = contents a
  peekWord : ∀ a, (r.peekWord a).toNat = BigEndian.value ((span a 2).map contents)
  peekLong : ∀ a, (r.peekLong a).toNat = BigEndian.value ((span a 4).map contents)
  readByte : ∀ a, (Bus.readByte r a).1 = visible limit contents a
  readWord : ∀ a,
    (Bus.readWord r a).1.toNat = BigEndian.value ((span a 2).map (visible limit contents))
  readLong : ∀ a,
    (Bus.readLong r a).1.toNat = BigEndian.value ((span a 4).map (visible limit contents))
  readLongFullAccess : ∀ a, (Bus.readLongFullAccess r a).1.toNat =
    BigEndian.value ((span a 4).map (visible limit contents))

structure ReadsOnly (r : Ram) : Prop where
  readByte : ∀ a, SameContents r (Bus.readByte r a).2
  readWord : ∀ a, SameContents r (Bus.readWord r a).2
  readLong : ∀ a, SameContents r (Bus.readLong r a).2
  readLongFullAccess : ∀ a, SameContents r (Bus.readLongFullAccess r a).2
  takeFault : SameContents r (Bus.takeFault r).2

namespace SameContents
variable {r₁ r₂ : Ram}

theorem trans (h : SameContents r r₁) (h₁ : SameContents r₁ r₂) : SameContents r r₂ :=
  ⟨h₁.cells.trans h.cells, h₁.limit.trans h.limit⟩

theorem peek_eq (h : SameContents r r₁) (a : UInt32) : r₁.peek a = r.peek a := by
  simp only [peek, cell, Fin.getElem_fin, h.cells]

theorem readByte (r : Ram) (a : UInt32) : SameContents r (Bus.readByte r a).2 := by
  change SameContents r (r.readByte a).2
  rw [Ram.readByte]
  split <;> exact ⟨rfl, rfl⟩

theorem readWord (r : Ram) (a : UInt32) : SameContents r (Bus.readWord r a).2 :=
  (readByte r a).trans (readByte _ (a + 1))

theorem readLong (r : Ram) (a : UInt32) : SameContents r (Bus.readLong r a).2 :=
  (readWord r a).trans (readWord _ (a + 2))

end SameContents

theorem readsOnly (r : Ram) : r.ReadsOnly where
  readByte := .readByte r
  readWord := .readWord r
  readLong := .readLong r
  readLongFullAccess := .readLong r
  takeFault := ⟨rfl, rfl⟩

theorem readByte_visible (r : Ram) (a : UInt32) :
    (Bus.readByte r a).1 = visible r.limit r.peek a := by
  change (r.readByte a).1 = _
  rw [Ram.readByte, isUnmapped_eq, visible]
  split <;> rfl

theorem SameContents.visible_eq {r₁ : Ram} (h : SameContents r r₁) :
    visible r₁.limit r₁.peek = visible r.limit r.peek := by
  funext a
  rw [visible, visible, h.limit, h.peek_eq]

theorem readWord_visible (r : Ram) (a : UInt32) :
    (Bus.readWord r a).1 =
      BigEndian.word (visible r.limit r.peek a) (visible r.limit r.peek (a + 1)) := by
  have hlow := readByte_visible (Bus.readByte r a).2 (a + 1)
  rw [(SameContents.readByte r a).visible_eq] at hlow
  rw [← hlow, ← readByte_visible]
  rfl

theorem readLong_visible (r : Ram) (a : UInt32) :
    (Bus.readLong r a).1 =
      BigEndian.long
        (BigEndian.word (visible r.limit r.peek a) (visible r.limit r.peek (a + 1)))
        (BigEndian.word (visible r.limit r.peek (a + 2)) (visible r.limit r.peek (a + 2 + 1))) := by
  have hlow := readWord_visible (Bus.readWord r a).2 (a + 2)
  rw [(SameContents.readWord r a).visible_eq] at hlow
  rw [← hlow, ← readWord_visible]
  rfl

theorem map_span_four {α : Type} (f : UInt32 → α) (a : UInt32) :
    (span a 4).map f = [f a, f (a + 1), f (a + 2), f (a + 2 + 1)] := by
  have hnext : a + 1 + 1 = a + 2 := by rw [UInt32.add_assoc]; rfl
  simp only [span, List.map_cons, List.map_nil, hnext]

theorem Represents.isFlat (h : Represents size limit r xs) :
    r.IsFlat limit (lastStored size xs) := by
  obtain rfl := h.limit_eq
  have hpeek : lastStored size xs = r.peek := funext fun a => (h.peek_eq a).symm
  rw [hpeek]
  have hlong : ∀ a, (Bus.readLong r a).1.toNat =
      BigEndian.value ((span a 4).map (visible r.limit r.peek)) := by
    intro a
    rw [map_span_four, BigEndian.value_long, readLong_visible]
  refine ⟨fun _ => rfl, fun a => ?_, fun a => ?_, readByte_visible r, fun a => ?_, hlong, hlong⟩
  · exact (BigEndian.value_word _ _).symm
  · rw [map_span_four, BigEndian.value_long]
    rfl
  · rw [readWord_visible, ← BigEndian.value_word]
    rfl

theorem two_le_capacity (n : Nat) : 2 ≤ capacity n := by
  have hpow : 2 ^ 1 ≤ 2 ^ ((max n 2 - 1).log2 + 1) :=
    Nat.pow_le_pow_right (by decide) (Nat.le_add_left 1 _)
  rw [capacity, Nat.shiftLeft_eq, Nat.one_mul]
  exact hpow

structure IsCapacity (n size : Nat) : Prop where
  power : size.isPowerOfTwo
  two_le : 2 ≤ size
  le : n ≤ size
  least : ∀ p : Nat, p.isPowerOfTwo → 2 ≤ p → n ≤ p → size ≤ p

theorem isCapacity (n : Nat) : IsCapacity n (capacity n) where
  power := isPowerOfTwo_capacity n
  two_le := two_le_capacity n
  le := le_capacity n
  least _ hp h2 hn := capacity_le hp hn h2

/-- Memory of any size, limited or not, after any stores. -/
theorem contents_foldl_perform (n : Nat) (limit : Option UInt32) (stores : List Store) :
    let r := stores.foldl Store.perform (ofLimit n limit)
    IsCapacity n r.size ∧
      r.IsFlat limit (lastStored r.size (stores.flatMap (Store.bytes limit))) ∧ r.ReadsOnly ∧
      (∀ w, BigEndian.value (BigEndian.wordBytes w) = w.toNat) ∧
      ∀ l, BigEndian.value (BigEndian.longBytes l) = l.toNat := by
  have hstored := (represents_ofLimit n limit).foldl_perform stores
  intro r
  have hsize : r.size = capacity n := hstored.size_eq
  rw [hsize]
  exact ⟨isCapacity n, hstored.isFlat, readsOnly r, BigEndian.value_wordBytes,
    BigEndian.value_longBytes⟩

-- A long that is wider than memory: the bytes that come last stay.
example : (Store.perform (ofSize 2) (.writeLong 0xFFFFFFFF 0x11223344)).peekWord 0 = 0x4433 := by
  decide +kernel

end Ram
end Mc68000
