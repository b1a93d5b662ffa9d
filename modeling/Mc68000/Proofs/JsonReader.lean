import Mc68000.Proofs.JsonGrammar

/-!
# The reader and the grammar

The reader takes exactly the texts of the grammar, each for the one value that it spells. Both
directions follow the recursion of the reader, whose fuel covers every text that is given to it.
-/

namespace Mc68000.Json

def StartsNumber (c : Char) : Prop := c.isDigit = true ∨ c = '-'

theorem StartsNumber.ne {c d : Char} (h : StartsNumber c) (hdigit : d.isDigit = false)
    (hsign : d ≠ '-') : c ≠ d := by
  rintro rfl
  rcases h with h | h
  · rw [h] at hdigit
    cases hdigit
  · exact hsign h

theorem StartsNumber.isBlank {c : Char} (h : StartsNumber c) : isBlank c = false := by
  simp [Json.isBlank, h.ne (d := ' ') rfl (by decide), h.ne (d := '\n') rfl (by decide),
    h.ne (d := '\t') rfl (by decide), h.ne (d := '\r') rfl (by decide)]

theorem startsNumber_digits (n : Nat) : ∃ c cs, digits n = c :: cs ∧ StartsNumber c := by
  have hdigits := (isDigits_digits n).isDigit
  obtain ⟨c, cs, hcs⟩ := List.exists_cons_of_ne_nil (isDigits_digits n).ne_nil
  exact ⟨c, cs, hcs, .inl (hdigits c (by simp [hcs]))⟩

theorem IsDecimal.startsNumber {ds : List Char} (h : IsDecimal ds) :
    ∃ c cs, ds = c :: cs ∧ StartsNumber c := by
  obtain @⟨sign, fraction, exponent, n, hsign, -, -, -⟩ := h
  rcases hsign with rfl | rfl
  · obtain ⟨c, cs, hcs, hc⟩ := startsNumber_digits n
    exact ⟨c, cs ++ fraction ++ exponent, by rw [hcs]; rfl, hc⟩
  · exact ⟨'-', digits n ++ fraction ++ exponent, rfl, .inr rfl⟩

theorem readValue_number {c : Char} (h : StartsNumber c) (fuel : Nat) (cs : List Char) :
    readValue (fuel + 1) (c :: cs) = readNumber (c :: cs) := by
  rw [readValue, skipBlanks_cons h.isBlank]
  split
  case h_7 => rfl
  all_goals
    rename_i heq
    cases heq
    exact absurd rfl (h.ne rfl (by decide))

theorem Spells.head {v : Json} {cs : List Char} (h : Spells v cs) :
    ∃ c ds, cs = c :: ds ∧ isBlank c = false ∧ c ≠ ']' := by
  have hnumber : ∀ {ds}, (∃ c cs, ds = c :: cs ∧ StartsNumber c) →
      ∃ c cs, ds = c :: cs ∧ isBlank c = false ∧ c ≠ ']' :=
    fun ⟨c, cs, hds, hc⟩ => ⟨c, cs, hds, hc.isBlank, hc.ne rfl (by decide)⟩
  cases h with
  | natural n => exact hnumber (startsNumber_digits n)
  | decimal h => exact hnumber h.startsNumber
  | _ => exact ⟨_, _, rfl, rfl, by decide⟩

theorem SpellsPadded.head {v : Json} {cs : List Char} (h : SpellsPadded v cs) (rest : List Char) :
    ∃ c ds, skipBlanks (cs ++ rest) = c :: ds ∧ c ≠ ']' := by
  obtain ⟨hbefore, h, -⟩ := h
  obtain ⟨c, ds, rfl, hblank, hc⟩ := h.head
  simp only [List.append_assoc, List.cons_append]
  rw [skipBlanks_append hbefore, skipBlanks_cons hblank]
  exact ⟨c, _, rfl, hc⟩

theorem SpellsItems.head {vs : List Json} {cs : List Char} (h : SpellsItems vs cs)
    (rest : List Char) : ∃ c ds, skipBlanks (cs ++ rest) = c :: ds ∧ c ≠ ']' := by
  cases h with
  | last h => exact h.head rest
  | more h =>
    rw [List.append_assoc]
    exact h.head _

theorem SpellsName.head {ps : List Piece} {cs : List Char} (h : SpellsName ps cs)
    (rest : List Char) : ∃ ds, skipBlanks (cs ++ rest) = '"' :: ds := by
  obtain ⟨hbefore, -, -⟩ := h
  rw [List.append_assoc, skipBlanks_append hbefore, List.cons_append, skipBlanks_cons rfl]
  exact ⟨_, rfl⟩

theorem SpellsMembers.head {ms : List (List Piece × Json)} {cs : List Char}
    (h : SpellsMembers ms cs) (rest : List Char) : ∃ ds, skipBlanks (cs ++ rest) = '"' :: ds := by
  cases h with
  | last hname | more hname =>
    rw [List.append_assoc]
    exact hname.head _

theorem readValue_append {ws : List Char} (h : IsBlanks ws) (fuel : Nat) (cs : List Char) :
    readValue fuel (ws ++ cs) = readValue fuel cs := by
  cases fuel with
  | zero => rw [readValue, readValue]
  | succ fuel => rw [readValue, readValue, skipBlanks_append h]

/-- What may follow a value: blanks, and then a sign of punctuation or nothing. -/
def Follows (rest : List Char) : Prop :=
  ∀ c ∈ rest.head?, isBlank c = false ∧ c.isDigit = false ∧ c ≠ '.' ∧ isExponentMark c = false

theorem Follows.endsNumber {ws rest : List Char} (hws : IsBlanks ws) (h : Follows rest) :
    EndsNumber (ws ++ rest) := by
  cases ws with
  | nil => exact fun c hc => (h c hc).2
  | cons c ws =>
    intro d hd
    cases hd
    have hc : isBlank c = true := hws c List.mem_cons_self
    simp only [isBlank, Bool.or_eq_true, beq_iff_eq, or_assoc] at hc
    rcases hc with rfl | rfl | rfl | rfl <;> decide

theorem Follows.skipBlanks {ws rest : List Char} (hws : IsBlanks ws) (h : Follows rest) :
    skipBlanks (ws ++ rest) = rest := by
  rw [skipBlanks_append hws]
  cases rest with
  | nil => rfl
  | cons c rest => exact skipBlanks_cons (h c rfl).1 rest

theorem follows_cons {c : Char} (h : c = ',' ∨ c = ']' ∨ c = '\x7d') (cs : List Char) :
    Follows (c :: cs) := by
  intro d hd
  cases hd
  rcases h with rfl | rfl | rfl <;> decide

/-- With so much fuel the reader reads whatever is spelled. -/
structure ReadsSpelled (fuel : Nat) : Prop where
  value : ∀ {v : Json} {cs rest : List Char}, Spells v cs → 2 * cs.length ≤ fuel →
    EndsNumber rest → readValue fuel (cs ++ rest) = some (v, rest)
  items : ∀ {vs : List Json} {cs rest : List Char}, SpellsItems vs cs →
    2 * cs.length + 1 ≤ fuel → readItems fuel (cs ++ ']' :: rest) = some (vs, rest)
  members : ∀ {ms : List (List Piece × Json)} {cs rest : List Char}, SpellsMembers ms cs →
    2 * cs.length + 1 ≤ fuel → readMembers fuel (cs ++ '\x7d' :: rest) = some (ms, rest)

theorem ReadsSpelled.padded {fuel : Nat} (h : ReadsSpelled fuel) {v : Json} {cs rest : List Char}
    (hv : SpellsPadded v cs) (hfuel : 2 * cs.length ≤ fuel) (hrest : Follows rest) :
    ∃ ws, readValue fuel (cs ++ rest) = some (v, ws) ∧ skipBlanks ws = rest := by
  obtain @⟨v, before, cs, after, hbefore, hv, hafter⟩ := hv
  simp only [List.length_append] at hfuel
  refine ⟨after ++ rest, ?_, hrest.skipBlanks hafter⟩
  rw [List.append_assoc, readValue_append hbefore, List.append_assoc]
  exact h.value hv (by omega) (hrest.endsNumber hafter)

namespace ReadsSpelled
variable {fuel : Nat} {rest : List Char}

theorem array_succ (h : ReadsSpelled fuel) {vs : List Json} {cs : List Char}
    (hvs : SpellsItems vs cs) (hfuel : 2 * cs.length + 1 ≤ fuel) :
    readValue (fuel + 1) ('[' :: (cs ++ ']' :: rest)) = some (.array vs, rest) := by
  obtain ⟨c, ds, hhead, hc⟩ := hvs.head (']' :: rest)
  rw [readValue, skipBlanks_cons rfl]
  simp only [hhead, h.items hvs hfuel]
  split
  · rename_i heq
    cases heq
    exact absurd rfl hc
  · rfl

theorem object_succ (h : ReadsSpelled fuel) {ms : List (List Piece × Json)} {cs : List Char}
    (hms : SpellsMembers ms cs) (hfuel : 2 * cs.length + 1 ≤ fuel) :
    readValue (fuel + 1) ('\x7b' :: (cs ++ '\x7d' :: rest)) = some (.object ms, rest) := by
  obtain ⟨ds, hhead⟩ := hms.head ('\x7d' :: rest)
  rw [readValue, skipBlanks_cons rfl]
  simp only [hhead, h.members hms hfuel]
  rfl

theorem value_succ (h : ReadsSpelled fuel) {v : Json} {cs : List Char} (hv : Spells v cs)
    (hfuel : 2 * cs.length ≤ fuel + 1) (hrest : EndsNumber rest) :
    readValue (fuel + 1) (cs ++ rest) = some (v, rest) := by
  cases hv with
  | null | yes | no =>
    rw [readValue]
    rfl
  | natural n =>
    obtain ⟨c, ds, hds, hc⟩ := startsNumber_digits n
    have hread := readNumber_natural n hrest
    rw [hds, List.cons_append] at hread ⊢
    rw [readValue_number hc, hread]
  | decimal hdecimal =>
    have hread := readNumber_decimal hdecimal hrest
    obtain ⟨c, ds, rfl, hc⟩ := hdecimal.startsNumber
    rw [List.cons_append] at hread ⊢
    rw [readValue_number hc, hread]
  | text htext =>
    simp only [List.cons_append, List.append_assoc, List.nil_append]
    rw [readValue, skipBlanks_cons rfl]
    simp only [readText_of_spellsText htext rest]
    rfl
  | noItems hws =>
    have hskip := skipBlanks_append hws (']' :: rest)
    rw [skipBlanks_cons rfl] at hskip
    simp only [List.cons_append, List.append_assoc, List.nil_append]
    rw [readValue, skipBlanks_cons rfl]
    simp only [hskip]
  | @items vs cs hvs =>
    simp only [List.length_cons, List.length_append, List.length_nil] at hfuel
    simp only [List.cons_append, List.append_assoc, List.nil_append]
    exact h.array_succ hvs (by omega)
  | noMembers hws =>
    have hskip := skipBlanks_append hws ('\x7d' :: rest)
    rw [skipBlanks_cons rfl] at hskip
    simp only [List.cons_append, List.append_assoc, List.nil_append]
    rw [readValue, skipBlanks_cons rfl]
    simp only [hskip]
  | @members ms cs hms =>
    simp only [List.length_cons, List.length_append, List.length_nil] at hfuel
    simp only [List.cons_append, List.append_assoc, List.nil_append]
    exact h.object_succ hms (by omega)

theorem items_succ (h : ReadsSpelled fuel) {vs : List Json} {cs : List Char}
    (hvs : SpellsItems vs cs) (hfuel : 2 * cs.length + 1 ≤ fuel + 1) :
    readItems (fuel + 1) (cs ++ ']' :: rest) = some (vs, rest) := by
  cases hvs with
  | last hv =>
    obtain ⟨ws, hread, hskip⟩ := h.padded hv (by omega) (follows_cons (.inr (.inl rfl)) rest)
    rw [readItems, hread]
    simp only [Option.bind_some, hskip]
  | @more v vs cs ds hv hvs =>
    simp only [List.length_cons, List.length_append] at hfuel
    obtain ⟨ws, hread, hskip⟩ :=
      h.padded hv (by omega) (follows_cons (.inl rfl) (ds ++ ']' :: rest))
    have hitems : readItems fuel (ds ++ ']' :: rest) = some (vs, rest) :=
      h.items hvs (by omega)
    rw [List.append_assoc, List.cons_append, readItems, hread]
    simp only [Option.bind_some, hskip, hitems]
    rfl

theorem members_succ (h : ReadsSpelled fuel) {ms : List (List Piece × Json)} {cs : List Char}
    (hms : SpellsMembers ms cs) (hfuel : 2 * cs.length + 1 ≤ fuel + 1) :
    readMembers (fuel + 1) (cs ++ '\x7d' :: rest) = some (ms, rest) := by
  cases hms with
  | @last name v ns cs hname hv =>
    simp only [List.length_cons, List.length_append] at hfuel
    obtain ⟨ws, hread, hskip⟩ := h.padded hv (by omega) (follows_cons (.inr (.inr rfl)) rest)
    rw [List.append_assoc, List.cons_append, readMembers, readName_of_spellsName hname]
    simp only [Option.bind_some, hread, hskip]
  | @more name v ms ns cs ds hname hv hms =>
    simp only [List.length_cons, List.length_append] at hfuel
    obtain ⟨ws, hread, hskip⟩ :=
      h.padded hv (by omega) (follows_cons (.inl rfl) (ds ++ '\x7d' :: rest))
    have hmembers : readMembers fuel (ds ++ '\x7d' :: rest) = some (ms, rest) :=
      h.members hms (by omega)
    simp only [List.append_assoc, List.cons_append]
    rw [readMembers, readName_of_spellsName hname]
    simp only [Option.bind_some, hread, hskip, hmembers]
    rfl

end ReadsSpelled

theorem readsSpelled (fuel : Nat) : ReadsSpelled fuel := by
  induction fuel with
  | zero =>
    refine ⟨fun hv hfuel => ?_, fun _ hfuel => by omega, fun _ hfuel => by omega⟩
    obtain ⟨c, cs, rfl, -⟩ := hv.head
    rw [List.length_cons] at hfuel
    omega
  | succ fuel ih => exact ⟨ih.value_succ, ih.items_succ, ih.members_succ⟩

/-- Whatever the reader takes off the front is spelled there. -/
structure ReadIsSpelled (fuel : Nat) : Prop where
  value : ∀ {cs rest : List Char} {v : Json}, readValue fuel cs = some (v, rest) →
    ∃ before body, IsBlanks before ∧ Spells v body ∧ cs = before ++ (body ++ rest)
  items : ∀ {cs rest : List Char} {vs : List Json}, readItems fuel cs = some (vs, rest) →
    ∃ body, SpellsItems vs body ∧ cs = body ++ ']' :: rest
  members : ∀ {cs rest : List Char} {ms : List (List Piece × Json)},
    readMembers fuel cs = some (ms, rest) →
    ∃ body, SpellsMembers ms body ∧ cs = body ++ '\x7d' :: rest

namespace ReadIsSpelled
variable {fuel : Nat} {cs rest : List Char}

theorem padded (h : ReadIsSpelled fuel) {v : Json} {ws ds : List Char}
    (hread : readValue fuel cs = some (v, ws)) (hskip : skipBlanks ws = ds) :
    ∃ body, SpellsPadded v body ∧ cs = body ++ ds := by
  obtain ⟨before, body, hbefore, hbody, rfl⟩ := h.value hread
  obtain ⟨after, hafter, rfl⟩ := exists_of_skipBlanks hskip
  exact ⟨_, .mk hbefore hbody hafter, by simp⟩

theorem value_succ (h : ReadIsSpelled fuel) {v : Json}
    (hread : readValue (fuel + 1) cs = some (v, rest)) :
    ∃ before body, IsBlanks before ∧ Spells v body ∧ cs = before ++ (body ++ rest) := by
  rw [readValue] at hread
  generalize hds : skipBlanks cs = ds at hread
  obtain ⟨before, hbefore, rfl⟩ := exists_of_skipBlanks hds
  suffices hbody : ∃ body, Spells v body ∧ ds = body ++ rest by
    obtain ⟨body, hbody, rfl⟩ := hbody
    exact ⟨before, body, hbefore, hbody, rfl⟩
  clear hds
  split at hread
  · cases hread
    exact ⟨_, .null, rfl⟩
  · cases hread
    exact ⟨_, .yes, rfl⟩
  · cases hread
    exact ⟨_, .no, rfl⟩
  · obtain ⟨⟨ps, es⟩, htext, heq⟩ := Option.map_eq_some_iff.mp hread
    cases heq
    obtain ⟨body, rfl, hbody⟩ := spellsText_of_readText htext
    exact ⟨_, .text hbody, by simp⟩
  · split at hread
    · rename_i hskip
      cases hread
      obtain ⟨ws, hws, rfl⟩ := exists_of_skipBlanks hskip
      exact ⟨_, .noItems hws, by simp⟩
    · obtain ⟨⟨vs, es⟩, hitems, heq⟩ := Option.map_eq_some_iff.mp hread
      cases heq
      obtain ⟨body, hbody, rfl⟩ := h.items hitems
      exact ⟨_, .items hbody, by simp⟩
  · split at hread
    · rename_i hskip
      cases hread
      obtain ⟨ws, hws, rfl⟩ := exists_of_skipBlanks hskip
      exact ⟨_, .noMembers hws, by simp⟩
    · obtain ⟨⟨ms, es⟩, hmembers, heq⟩ := Option.map_eq_some_iff.mp hread
      cases heq
      obtain ⟨body, hbody, rfl⟩ := h.members hmembers
      exact ⟨_, .members hbody, by simp⟩
  · obtain ⟨body, rfl, hbody⟩ := spells_of_readNumber hread
    exact ⟨body, hbody, rfl⟩

theorem items_succ (h : ReadIsSpelled fuel) {vs : List Json}
    (hread : readItems (fuel + 1) cs = some (vs, rest)) :
    ∃ body, SpellsItems vs body ∧ cs = body ++ ']' :: rest := by
  rw [readItems] at hread
  obtain ⟨⟨v, ws⟩, hvalue, hread⟩ := Option.bind_eq_some_iff.mp hread
  split at hread
  · rename_i hskip
    cases hread
    obtain ⟨body, hbody, rfl⟩ := h.padded hvalue hskip
    exact ⟨body, .last hbody, rfl⟩
  · rename_i hskip
    obtain ⟨⟨vs, es⟩, hitems, heq⟩ := Option.map_eq_some_iff.mp hread
    cases heq
    obtain ⟨body, hbody, rfl⟩ := h.padded hvalue hskip
    obtain ⟨more, hmore, rfl⟩ := h.items hitems
    exact ⟨_, .more hbody hmore, by simp⟩
  · cases hread

theorem members_succ (h : ReadIsSpelled fuel) {ms : List (List Piece × Json)}
    (hread : readMembers (fuel + 1) cs = some (ms, rest)) :
    ∃ body, SpellsMembers ms body ∧ cs = body ++ '\x7d' :: rest := by
  rw [readMembers] at hread
  obtain ⟨⟨name, ds⟩, hname, hafter⟩ := Option.bind_eq_some_iff.mp hread
  obtain ⟨⟨v, ws⟩, hvalue, hafter⟩ := Option.bind_eq_some_iff.mp hafter
  obtain ⟨ns, rfl, hns⟩ := spellsName_of_readName hname
  split at hafter
  · rename_i hskip
    cases hafter
    obtain ⟨body, hbody, rfl⟩ := h.padded hvalue hskip
    exact ⟨_, .last hns hbody, by simp⟩
  · rename_i hskip
    obtain ⟨⟨ms, es⟩, hmembers, heq⟩ := Option.map_eq_some_iff.mp hafter
    cases heq
    obtain ⟨body, hbody, rfl⟩ := h.padded hvalue hskip
    obtain ⟨more, hmore, rfl⟩ := h.members hmembers
    exact ⟨_, .more hns hbody hmore, by simp⟩
  · cases hafter

end ReadIsSpelled

theorem readIsSpelled (fuel : Nat) : ReadIsSpelled fuel := by
  induction fuel with
  | zero =>
    refine ⟨fun h => ?_, fun h => ?_, fun h => ?_⟩
    · rw [readValue] at h
      cases h
    · rw [readItems] at h
      cases h
    · rw [readMembers] at h
      cases h
  | succ fuel ih => exact ⟨ih.value_succ, ih.items_succ, ih.members_succ⟩

/-- The texts that are read are those that are spelled, and they give the value that is spelled. -/
theorem parse_eq_some_iff {cs : List Char} {v : Json} :
    parse cs = some v ↔ SpellsPadded v cs := by
  constructor
  · intro h
    rw [parse] at h
    split at h
    case h_2 => cases h
    case h_1 w rest hread =>
      split at h
      case isFalse => cases h
      case isTrue hrest =>
        cases h
        obtain ⟨body, hbody, rfl⟩ :=
          (readIsSpelled _).padded hread (List.isEmpty_iff.mp hrest)
        rwa [List.append_nil]
  · intro h
    have hend : Follows [] := fun c hc => by cases hc
    obtain ⟨ws, hread, hskip⟩ :=
      (readsSpelled (fuelFor cs)).padded h (by rw [fuelFor]; omega) hend
    rw [List.append_nil] at hread
    rw [parse, hread]
    simp only [hskip, List.isEmpty_nil, if_true]

end Mc68000.Json
