import Mc68000.Json.Reader
import Mathlib.Data.List.Induction

/-!
# The grammar of JSON

How a value may be written: with blanks around every token, with escapes in texts, with numbers in
any of their forms. A number without sign, fraction and exponent is written in one way only, and so
is every other token but for the escapes of a text. Texts and numbers are read as they are written,
and as far as they go.
-/

namespace Mc68000.Json

def IsBlanks (cs : List Char) : Prop := ∀ c ∈ cs, isBlank c = true

structure IsDigits (ds : List Char) : Prop where
  ne_nil : ds ≠ []
  isDigit : ∀ c ∈ ds, c.isDigit = true

inductive IsFraction : List Char → Prop
  | none : IsFraction []
  | point {ds : List Char} (h : IsDigits ds) : IsFraction ('.' :: ds)

inductive IsExponent : List Char → Prop
  | none : IsExponent []
  | mark {c : Char} {sign ds : List Char} (hmark : c = 'e' ∨ c = 'E')
    (hsign : sign = [] ∨ sign = ['+'] ∨ sign = ['-']) (h : IsDigits ds) :
    IsExponent (c :: (sign ++ ds))

/-- A number that has a sign, a fraction or an exponent. -/
inductive IsDecimal : List Char → Prop
  | mk {sign fraction exponent : List Char} (n : Nat) (hsign : sign = [] ∨ sign = ['-'])
    (hfraction : IsFraction fraction) (hexponent : IsExponent exponent)
    (h : sign ≠ [] ∨ fraction ≠ [] ∨ exponent ≠ []) :
    IsDecimal (sign ++ digits n ++ fraction ++ exponent)

inductive SpellsPiece : Piece → List Char → Prop
  | plain {c : Char} (hquote : c ≠ '"') (hslash : c ≠ '\\') (hcontrol : ' ' ≤ c) :
    SpellsPiece (.plain c) [c]
  | escape {c : Char} (h : c ∈ ['"', '\\', '/', 'b', 'f', 'n', 'r', 't']) :
    SpellsPiece (.escape c) ['\\', c]
  | unit {a b c d : Char} {n : Nat} (h : unit? a b c d = some n) :
    SpellsPiece (.unit n) ['\\', 'u', a, b, c, d]

inductive SpellsText : List Piece → List Char → Prop
  | nil : SpellsText [] []
  | cons {p : Piece} {ps : List Piece} {cs ds : List Char} (h : SpellsPiece p cs)
    (rest : SpellsText ps ds) : SpellsText (p :: ps) (cs ++ ds)

/-- A name with its quotes, and with blanks around it. -/
inductive SpellsName : List Piece → List Char → Prop
  | mk {ps : List Piece} {before cs after : List Char} (hbefore : IsBlanks before)
    (h : SpellsText ps cs) (hafter : IsBlanks after) :
    SpellsName ps (before ++ '"' :: (cs ++ '"' :: after))

mutual

inductive Spells : Json → List Char → Prop
  | null : Spells .null ['n', 'u', 'l', 'l']
  | yes : Spells (.bool true) ['t', 'r', 'u', 'e']
  | no : Spells (.bool false) ['f', 'a', 'l', 's', 'e']
  | natural (n : Nat) : Spells (.natural n) (digits n)
  | decimal {ds : List Char} (h : IsDecimal ds) : Spells (.decimal ds) ds
  | text {ps : List Piece} {cs : List Char} (h : SpellsText ps cs) :
    Spells (.text ps) ('"' :: (cs ++ ['"']))
  | noItems {ws : List Char} (h : IsBlanks ws) : Spells (.array []) ('[' :: (ws ++ [']']))
  | items {vs : List Json} {cs : List Char} (h : SpellsItems vs cs) :
    Spells (.array vs) ('[' :: (cs ++ [']']))
  | noMembers {ws : List Char} (h : IsBlanks ws) :
    Spells (.object []) ('\x7b' :: (ws ++ ['\x7d']))
  | members {ms : List (List Piece × Json)} {cs : List Char} (h : SpellsMembers ms cs) :
    Spells (.object ms) ('\x7b' :: (cs ++ ['\x7d']))

/-- A value with blanks around it. A whole text is one. -/
inductive SpellsPadded : Json → List Char → Prop
  | mk {v : Json} {before cs after : List Char} (hbefore : IsBlanks before) (h : Spells v cs)
    (hafter : IsBlanks after) : SpellsPadded v (before ++ (cs ++ after))

inductive SpellsItems : List Json → List Char → Prop
  | last {v : Json} {cs : List Char} (h : SpellsPadded v cs) : SpellsItems [v] cs
  | more {v : Json} {vs : List Json} {cs ds : List Char} (h : SpellsPadded v cs)
    (rest : SpellsItems vs ds) : SpellsItems (v :: vs) (cs ++ ',' :: ds)

inductive SpellsMembers : List (List Piece × Json) → List Char → Prop
  | last {name : List Piece} {v : Json} {ns cs : List Char} (hname : SpellsName name ns)
    (h : SpellsPadded v cs) : SpellsMembers [(name, v)] (ns ++ ':' :: cs)
  | more {name : List Piece} {v : Json} {ms : List (List Piece × Json)} {ns cs ds : List Char}
    (hname : SpellsName name ns) (h : SpellsPadded v cs) (rest : SpellsMembers ms ds) :
    SpellsMembers ((name, v) :: ms) (ns ++ ':' :: (cs ++ ',' :: ds))

end

theorem exists_of_skipBlanks {cs ds : List Char} (h : skipBlanks cs = ds) :
    ∃ ws, IsBlanks ws ∧ cs = ws ++ ds :=
  ⟨cs.takeWhile isBlank, fun c hc => List.all_eq_true.mp List.all_takeWhile c hc,
    by rw [← h]; exact List.takeWhile_append_dropWhile.symm⟩

theorem skipBlanks_append {ws : List Char} (h : IsBlanks ws) (cs : List Char) :
    skipBlanks (ws ++ cs) = skipBlanks cs :=
  List.dropWhile_append_of_pos h

theorem skipBlanks_cons {c : Char} (h : isBlank c = false) (cs : List Char) :
    skipBlanks (c :: cs) = c :: cs :=
  List.dropWhile_cons_of_neg (by simp [h])

theorem isSome_unescape_iff (c : Char) :
    (unescape c).isSome ↔ c ∈ ['"', '\\', '/', 'b', 'f', 'n', 'r', 't'] := by
  unfold unescape
  split <;> simp_all

theorem readText_piece {p : Piece} {cs : List Char} (h : SpellsPiece p cs) (rest : List Char) :
    readText (cs ++ rest) = addPiece p (readText rest) := by
  cases h with
  | @plain c hquote hslash hcontrol =>
    have hread : ¬((c == '\\' || decide (c < ' ')) = true) := by
      simpa [hslash] using hcontrol
    rw [List.singleton_append, readText, if_neg hread]
    · exact hquote
    · exact fun _ _ _ _ _ hc => absurd hc hslash
    · exact fun _ _ hc => absurd hc hslash
  | @escape c h =>
    have hu : c ≠ 'u' := by
      rintro rfl
      simp at h
    rw [List.cons_append, List.singleton_append, readText, if_pos ((isSome_unescape_iff c).mpr h)]
    exact fun _ _ _ _ _ hc => absurd hc hu
  | unit h =>
    simp only [List.cons_append, List.nil_append]
    rw [readText, h]
    rfl

theorem readText_of_spellsText {ps : List Piece} {cs : List Char} (h : SpellsText ps cs)
    (rest : List Char) : readText (cs ++ '"' :: rest) = some (ps, rest) := by
  induction h with
  | nil => rw [List.nil_append, readText]
  | cons hp _ ih =>
    rw [List.append_assoc, readText_piece hp, ih]
    rfl

theorem spellsText_of_addPiece {p : Piece} {ps : List Piece} {cs ds rest : List Char}
    (hp : SpellsPiece p cs) (h : addPiece p (readText ds) = some (ps, rest))
    (ih : ∀ {ps rest}, readText ds = some (ps, rest) →
      ∃ body, ds = body ++ '"' :: rest ∧ SpellsText ps body) :
    ∃ body, cs ++ ds = body ++ '"' :: rest ∧ SpellsText ps body := by
  obtain ⟨⟨qs, rest⟩, hread, heq⟩ := Option.map_eq_some_iff.mp h
  cases heq
  obtain ⟨body, rfl, hbody⟩ := ih hread
  exact ⟨cs ++ body, (List.append_assoc ..).symm, .cons hp hbody⟩

theorem spellsText_of_readText {cs rest : List Char} {ps : List Piece}
    (h : readText cs = some (ps, rest)) : ∃ body, cs = body ++ '"' :: rest ∧ SpellsText ps body := by
  induction cs using readText.induct generalizing ps rest with
  | case1 => simp [readText] at h
  | case2 cs =>
    rw [readText] at h
    cases h
    exact ⟨[], rfl, .nil⟩
  | case3 a b c d cs ih =>
    rw [readText] at h
    obtain ⟨n, hn, h⟩ := Option.bind_eq_some_iff.mp h
    exact spellsText_of_addPiece (.unit hn) h ih
  | case4 c cs hu hc ih =>
    rw [readText, if_pos hc] at h
    · exact spellsText_of_addPiece (.escape ((isSome_unescape_iff c).mp hc)) h ih
    · exact hu
  | case5 c cs hu hc =>
    rw [readText, if_neg hc] at h
    · cases h
    · exact hu
  | case6 c cs hquote hunit hescape hc =>
    rw [readText, if_pos hc] at h
    · cases h
    · exact hquote
    · exact hunit
    · exact hescape
  | case7 c cs hquote hunit hescape hc ih =>
    rw [readText, if_neg hc] at h
    · simp only [Bool.or_eq_true, beq_iff_eq, decide_eq_true_eq, not_or, Char.not_lt] at hc
      exact spellsText_of_addPiece (.plain hquote hc.1 hc.2) h ih
    · exact hquote
    · exact hunit
    · exact hescape

theorem readName_of_spellsName {ps : List Piece} {cs : List Char} (h : SpellsName ps cs)
    (rest : List Char) : readName (cs ++ ':' :: rest) = some (ps, rest) := by
  obtain ⟨hbefore, h, hafter⟩ := h
  simp only [readName, List.append_assoc, List.cons_append]
  rw [skipBlanks_append hbefore, skipBlanks_cons rfl]
  simp only [readText_of_spellsText h, Option.bind_some]
  rw [skipBlanks_append hafter, skipBlanks_cons rfl]
  rfl

theorem spellsName_of_readName {cs rest : List Char} {ps : List Piece}
    (h : readName cs = some (ps, rest)) : ∃ body, cs = body ++ ':' :: rest ∧ SpellsName ps body := by
  rw [readName] at h
  split at h
  case h_2 => cases h
  case h_1 ds hds =>
    obtain ⟨before, hbefore, rfl⟩ := exists_of_skipBlanks hds
    obtain ⟨⟨qs, es⟩, hread, hcolon⟩ := Option.bind_eq_some_iff.mp h
    obtain ⟨text, rfl, htext⟩ := spellsText_of_readText hread
    split at hcolon
    case h_2 => cases hcolon
    case h_1 fs hfs =>
      cases hcolon
      obtain ⟨after, hafter, hes⟩ := exists_of_skipBlanks hfs
      refine ⟨_, ?_, .mk hbefore htext hafter⟩
      rw [show es = after ++ ':' :: rest from hes]
      simp

theorem isDigits_digits (n : Nat) : IsDigits (digits n) where
  ne_nil := Nat.toDigits_ne_nil
  isDigit _ hc := Nat.isDigit_of_mem_toDigits (by decide) (by decide) hc

theorem naturalOf_eq (ds : List Char) : naturalOf ds = Nat.ofDigitChars 10 ds 0 := by
  rw [naturalOf, Nat.ofDigitChars_eq_foldl]
  simp only [Nat.mul_comm 10]

theorem naturalOf_digits (n : Nat) : naturalOf (digits n) = n := by
  rw [naturalOf_eq]
  exact Nat.ofDigitChars_ten_toDigits

theorem naturalOf_append_singleton (ds : List Char) (c : Char) :
    naturalOf (ds ++ [c]) = 10 * naturalOf ds + (c.toNat - '0'.toNat) := by
  rw [naturalOf, List.foldl_append, Nat.mul_comm]
  rfl

theorem digits_of_lt {n : Nat} (h : n < 10) : digits n = [n.digitChar] :=
  Nat.toDigits_of_lt_base h

theorem digits_append {n d : Nat} (hn : 0 < n) (hd : d < 10) :
    digits n ++ [d.digitChar] = digits (10 * n + d) := by
  rw [← digits_of_lt hd]
  exact Nat.toDigits_append_toDigits (by decide) hn hd

theorem ne_zero_of_mem_head_digits {n : Nat} (hn : 0 < n) : ∀ c ∈ (digits n).head?, c ≠ '0' := by
  induction n using Nat.strongRecOn with
  | ind n ih =>
    by_cases hlt : n < 10
    · rw [digits_of_lt hlt]
      rintro c hc rfl
      have hzero : n.digitChar = '0' := by simpa using hc
      rw [Nat.digitChar_eq_zero] at hzero
      omega
    · have hsplit : digits n = digits (n / 10) ++ [(n % 10).digitChar] := by
        rw [digits_append (by omega) (by omega)]
        congr 1
        omega
      have hhead := ih (n / 10) (by omega) (by omega)
      obtain ⟨d, ds, hds⟩ := List.exists_cons_of_ne_nil (isDigits_digits (n / 10)).ne_nil
      rw [hds] at hsplit hhead
      rw [hsplit]
      exact hhead

theorem digitChar_of_isDigit {c : Char} (h : c.isDigit = true) :
    c.toNat - '0'.toNat < 10 ∧ (c.toNat - '0'.toNat).digitChar = c := by
  have hrange : 48 ≤ c.toNat ∧ c.toNat ≤ 57 := by
    simpa [Char.isDigit, UInt32.le_iff_toNat_le] using h
  have hlt : c.toNat - '0'.toNat < 10 := by
    change c.toNat - 48 < 10
    omega
  refine ⟨hlt, Char.toNat_inj.mp ?_⟩
  rw [Nat.toNat_digitChar_of_lt_ten hlt]
  change 48 + (c.toNat - 48) = c.toNat
  omega

theorem digits_naturalOf {ds : List Char} (h : IsDigits ds)
    (hzero : ∀ c cs, ds ≠ '0' :: c :: cs) : digits (naturalOf ds) = ds := by
  induction ds using List.reverseRecOn with
  | nil => exact absurd rfl h.ne_nil
  | append_singleton ds c ih =>
    obtain ⟨hlt, hc⟩ := digitChar_of_isDigit (h.isDigit c (by simp))
    rw [naturalOf_append_singleton]
    cases ds with
    | nil =>
      rw [naturalOf, List.foldl_nil, Nat.mul_zero, Nat.zero_add, digits_of_lt hlt, hc]
      rfl
    | cons d ds =>
      have hd : d ≠ '0' := by
        rintro rfl
        cases ds with
        | nil => exact hzero c [] rfl
        | cons e ds => exact hzero e (ds ++ [c]) rfl
      have hdigits : IsDigits (d :: ds) :=
        ⟨List.cons_ne_nil d ds, fun x hx => h.isDigit x (List.mem_append_left _ hx)⟩
      have hrest := ih hdigits fun x xs hx => hd (List.cons_eq_cons.mp hx).1
      have hpos : 0 < naturalOf (d :: ds) := by
        rw [Nat.pos_iff_ne_zero]
        intro hn
        rw [hn] at hrest
        exact hd (List.cons_eq_cons.mp hrest).1.symm
      rw [← digits_append hpos hlt, hrest, hc]

/-- What follows a number: nothing that could belong to it. -/
def EndsNumber (cs : List Char) : Prop :=
  ∀ c ∈ cs.head?, c.isDigit = false ∧ c ≠ '.' ∧ isExponentMark c = false

theorem readDigits_append {ds rest : List Char} (h : IsDigits ds)
    (hrest : ∀ c ∈ rest.head?, c.isDigit = false) :
    readDigits (ds ++ rest) = some (ds, rest) := by
  have hstop : rest.takeWhile Char.isDigit = [] ∧ rest.dropWhile Char.isDigit = rest := by
    cases rest with
    | nil => exact ⟨rfl, rfl⟩
    | cons c rest => simp [hrest c rfl]
  rw [readDigits, List.takeWhile_append_of_pos h.isDigit, List.dropWhile_append_of_pos h.isDigit,
    hstop.1, hstop.2, List.append_nil]
  split
  · exact absurd rfl h.ne_nil
  · rfl

theorem isDigits_of_readDigits {cs ds rest : List Char} (h : readDigits cs = some (ds, rest)) :
    cs = ds ++ rest ∧ IsDigits ds := by
  rw [readDigits] at h
  split at h
  · cases h
  · rename_i hne
    cases h
    refine ⟨List.takeWhile_append_dropWhile.symm, hne, fun c hc => ?_⟩
    exact List.all_eq_true.mp List.all_takeWhile c hc

theorem readInteger_digits (n : Nat) {rest : List Char}
    (hrest : ∀ c ∈ rest.head?, c.isDigit = false) :
    readInteger (digits n ++ rest) = some (digits n, rest) := by
  rw [readInteger, readDigits_append (isDigits_digits n) hrest]
  split
  case h_1 c cs _ heq =>
    have hdigits : digits n = '0' :: c :: cs := congrArg Prod.fst (Option.some.inj heq)
    rcases Nat.eq_zero_or_pos n with rfl | hn
    · cases hdigits
    · exact absurd rfl (ne_zero_of_mem_head_digits hn '0' (by rw [hdigits]; rfl))
  case h_2 => rfl

theorem eq_digits_of_readInteger {cs ds rest : List Char}
    (h : readInteger cs = some (ds, rest)) : cs = ds ++ rest ∧ ds = digits (naturalOf ds) := by
  rw [readInteger] at h
  split at h
  case h_1 => cases h
  case h_2 hzero =>
    obtain ⟨hcs, hdigits⟩ := isDigits_of_readDigits h
    refine ⟨hcs, (digits_naturalOf hdigits fun c es hds => ?_).symm⟩
    subst hds
    exact hzero c es rest h

theorem readFraction_append {fraction rest : List Char} (h : IsFraction fraction)
    (hrest : ∀ c ∈ rest.head?, c.isDigit = false ∧ c ≠ '.') :
    readFraction (fraction ++ rest) = some (fraction, rest) := by
  cases h with
  | none =>
    rw [List.nil_append]
    unfold readFraction
    split
    · exact absurd rfl (hrest '.' rfl).2
    · rfl
  | point h =>
    rw [List.cons_append, readFraction, readDigits_append h fun c hc => (hrest c hc).1]
    rfl

theorem isFraction_of_readFraction {cs ds rest : List Char}
    (h : readFraction cs = some (ds, rest)) : cs = ds ++ rest ∧ IsFraction ds := by
  unfold readFraction at h
  split at h
  · obtain ⟨⟨es, rest⟩, hread, heq⟩ := Option.map_eq_some_iff.mp h
    cases heq
    obtain ⟨rfl, hdigits⟩ := isDigits_of_readDigits hread
    exact ⟨rfl, .point hdigits⟩
  · cases h
    exact ⟨rfl, .none⟩

theorem isExponentMark_iff (c : Char) : isExponentMark c = true ↔ c = 'e' ∨ c = 'E' := by
  simp [isExponentMark]

theorem readSign_append {sign ds : List Char} (hsign : sign = [] ∨ sign = ['+'] ∨ sign = ['-'])
    (h : IsDigits ds) (rest : List Char) : readSign (sign ++ (ds ++ rest)) = (sign, ds ++ rest) := by
  rcases hsign with rfl | rfl | rfl
  · obtain ⟨c, cs, rfl⟩ := List.exists_cons_of_ne_nil h.ne_nil
    have hc := h.isDigit c List.mem_cons_self
    unfold readSign
    split
    · rename_i heq
      cases heq
      cases hc
    · rename_i heq
      cases heq
      cases hc
    · rfl
  · rfl
  · rfl

theorem readExponent_append {exponent rest : List Char} (h : IsExponent exponent)
    (hrest : EndsNumber rest) : readExponent (exponent ++ rest) = some (exponent, rest) := by
  cases h with
  | none =>
    cases rest with
    | nil => rfl
    | cons c rest =>
      have hmark : ¬isExponentMark c = true := by simp [(hrest c rfl).2.2]
      rw [List.nil_append, readExponent, if_neg hmark]
  | @mark c sign ds hmark hsign h =>
    have hdigits := readDigits_append h fun c hc => (hrest c hc).1
    rw [List.cons_append, readExponent, if_pos ((isExponentMark_iff c).mpr hmark),
      List.append_assoc, readSign_append hsign h]
    simp only [hdigits]
    rfl

theorem eq_append_of_readSign {cs sign rest : List Char} (h : readSign cs = (sign, rest)) :
    cs = sign ++ rest ∧ (sign = [] ∨ sign = ['+'] ∨ sign = ['-']) := by
  unfold readSign at h
  split at h
  all_goals
    cases h
    simp

theorem isExponent_of_readExponent {cs ds rest : List Char}
    (h : readExponent cs = some (ds, rest)) : cs = ds ++ rest ∧ IsExponent ds := by
  cases cs with
  | nil =>
    cases h
    exact ⟨rfl, .none⟩
  | cons c cs =>
    rw [readExponent] at h
    generalize hsigned : readSign cs = signed at h
    obtain ⟨sign, es⟩ := signed
    split at h
    · rename_i hmark
      obtain ⟨⟨fs, rest⟩, hread, heq⟩ := Option.map_eq_some_iff.mp h
      cases heq
      obtain ⟨rfl, hsign⟩ := eq_append_of_readSign hsigned
      obtain ⟨rfl, hdigits⟩ := isDigits_of_readDigits hread
      exact ⟨by simp, .mark ((isExponentMark_iff c).mp hmark) hsign hdigits⟩
    · cases h
      exact ⟨rfl, .none⟩

theorem head_exponent {exponent rest : List Char} (h : IsExponent exponent)
    (hrest : EndsNumber rest) :
    ∀ c ∈ (exponent ++ rest).head?, c.isDigit = false ∧ c ≠ '.' := by
  cases h with
  | none =>
    intro c hc
    exact ⟨(hrest c hc).1, (hrest c hc).2.1⟩
  | mark hmark =>
    intro c hc
    cases hc
    rcases hmark with rfl | rfl <;> decide

theorem head_fraction {fraction rest : List Char} (h : IsFraction fraction)
    (hrest : ∀ c ∈ rest.head?, c.isDigit = false ∧ c ≠ '.') :
    ∀ c ∈ (fraction ++ rest).head?, c.isDigit = false := by
  cases h with
  | none =>
    intro c hc
    exact (hrest c hc).1
  | point =>
    intro c hc
    cases hc
    rfl

theorem readMagnitude_append (sign : List Char) (n : Nat) {fraction exponent rest : List Char}
    (hfraction : IsFraction fraction) (hexponent : IsExponent exponent)
    (hrest : EndsNumber rest) :
    readMagnitude sign (digits n ++ (fraction ++ (exponent ++ rest))) =
      if sign = [] ∧ fraction = [] ∧ exponent = [] then some (.natural n, rest)
      else some (.decimal (sign ++ digits n ++ fraction ++ exponent), rest) := by
  have hdot := head_exponent hexponent hrest
  have hinteger := readInteger_digits n (head_fraction hfraction hdot)
  have hfraction := readFraction_append hfraction hdot
  have hexponent := readExponent_append hexponent hrest
  simp only [readMagnitude, hinteger, hfraction, hexponent, Option.bind_eq_bind, Option.bind_some,
    Option.pure_def, naturalOf_digits, Bool.and_eq_true, List.isEmpty_iff, and_assoc]

theorem readNumber_digits (n : Nat) (cs : List Char) :
    readNumber (digits n ++ cs) = readMagnitude [] (digits n ++ cs) := by
  have hdigits := (isDigits_digits n).isDigit
  obtain ⟨c, ds, hds⟩ := List.exists_cons_of_ne_nil (isDigits_digits n).ne_nil
  rw [hds] at hdigits ⊢
  rw [List.cons_append]
  unfold readNumber
  split
  · rename_i heq
    cases heq
    cases hdigits '-' List.mem_cons_self
  · rfl

theorem readNumber_natural (n : Nat) {rest : List Char} (hrest : EndsNumber rest) :
    readNumber (digits n ++ rest) = some (.natural n, rest) := by
  rw [readNumber_digits]
  exact readMagnitude_append [] n .none .none hrest

theorem readNumber_decimal {ds rest : List Char} (h : IsDecimal ds) (hrest : EndsNumber rest) :
    readNumber (ds ++ rest) = some (.decimal ds, rest) := by
  obtain @⟨sign, fraction, exponent, n, hsign, hfraction, hexponent, hsome⟩ := h
  have hread := readMagnitude_append sign n hfraction hexponent hrest
  rw [if_neg (by tauto)] at hread
  simp only [List.append_assoc] at hread ⊢
  rcases hsign with rfl | rfl
  · rw [List.nil_append, readNumber_digits]
    exact hread
  · exact hread

theorem spells_of_readMagnitude {sign cs rest : List Char} {v : Json}
    (hsign : sign = [] ∨ sign = ['-']) (h : readMagnitude sign cs = some (v, rest)) :
    ∃ body, cs = body ++ rest ∧ Spells v (sign ++ body) := by
  simp only [readMagnitude, Option.bind_eq_bind, Option.bind_eq_some_iff, Option.pure_def,
    Bool.and_eq_true, List.isEmpty_iff] at h
  obtain ⟨⟨whole, cs₁⟩, hread₁, ⟨fraction, cs₂⟩, hread₂, ⟨exponent, cs₃⟩, hread₃, h⟩ := h
  obtain ⟨rfl, hdigits⟩ := eq_digits_of_readInteger hread₁
  obtain ⟨rfl, hfraction⟩ := isFraction_of_readFraction hread₂
  obtain ⟨rfl, hexponent⟩ := isExponent_of_readExponent hread₃
  clear hread₁ hread₂ hread₃
  generalize naturalOf whole = n at hdigits h
  subst hdigits
  split at h
  · rename_i hnone
    obtain ⟨⟨rfl, rfl⟩, rfl⟩ := hnone
    cases h
    exact ⟨digits n, by simp, .natural n⟩
  · rename_i hsome
    cases h
    refine ⟨digits n ++ fraction ++ exponent, by simp, ?_⟩
    have hdecimal : IsDecimal (sign ++ digits n ++ fraction ++ exponent) :=
      .mk n hsign hfraction hexponent (by tauto)
    simpa using Spells.decimal hdecimal

theorem spells_of_readNumber {cs rest : List Char} {v : Json}
    (h : readNumber cs = some (v, rest)) : ∃ body, cs = body ++ rest ∧ Spells v body := by
  unfold readNumber at h
  split at h
  · obtain ⟨body, rfl, hbody⟩ := spells_of_readMagnitude (.inr rfl) h
    exact ⟨'-' :: body, rfl, hbody⟩
  · exact spells_of_readMagnitude (.inl rfl) h

end Mc68000.Json
