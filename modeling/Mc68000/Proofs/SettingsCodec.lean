import Mc68000.Proofs.JsonReader
import Mc68000.Settings.Json
import Mathlib.Logic.Function.Basic

/-!
# Settings as a codec

The reader of settings judges an object by the members that name a field, in whatever order and
spelling they come. Settings are the values of their fields, so that reading the object that they
are written as is a case of reading any object.
-/

namespace Mc68000

open Json (Piece)

namespace Json

theorem spellsText_plain {cs : List Char} (h : ∀ c ∈ cs, c ≠ '"' ∧ c ≠ '\\' ∧ ' ' ≤ c) :
    SpellsText (cs.map .plain) ((cs.map Piece.plain).flatMap Piece.render) := by
  induction cs with
  | nil => exact .nil
  | cons c cs ih =>
    obtain ⟨hquote, hslash, hcontrol⟩ := h c List.mem_cons_self
    exact .cons (.plain hquote hslash hcontrol) (ih fun d hd => h d (List.mem_cons_of_mem c hd))

theorem decodeText_plain (cs : List Char) : decodeText (cs.map .plain) = some cs := by
  induction cs with
  | nil => rfl
  | cons c cs ih =>
    rw [List.map_cons, decodeText, ih]
    rfl

theorem isBlanks_nil : IsBlanks [] :=
  fun _ hc => by cases hc

theorem Spells.padded {v : Json} {cs : List Char} (h : Spells v cs) : SpellsPadded v cs := by
  simpa using SpellsPadded.mk isBlanks_nil h isBlanks_nil

theorem spellsMembers_render {ms : List (List Piece × Json)} (hms : ms ≠ [])
    (hnames : ∀ m ∈ ms, SpellsText m.1 (m.1.flatMap Piece.render))
    (hvalues : ∀ m ∈ ms, Spells m.2 m.2.render) : SpellsMembers ms (renderMembers ms) := by
  induction ms with
  | nil => exact absurd rfl hms
  | cons m ms ih =>
    obtain ⟨name, v⟩ := m
    have hname : SpellsName name (renderText name) :=
      .mk isBlanks_nil (hnames _ List.mem_cons_self) isBlanks_nil
    have hvalue := (hvalues _ List.mem_cons_self).padded
    cases ms with
    | nil =>
      rw [renderMembers]
      exact .last hname hvalue
    | cons m ms =>
      have hrest := ih (List.cons_ne_nil m ms) (fun k hk => hnames k (List.mem_cons_of_mem _ hk))
        fun k hk => hvalues k (List.mem_cons_of_mem _ hk)
      rw [renderMembers, List.append_assoc, List.cons_append]
      · exact .more hname hvalue hrest
      · exact List.cons_ne_nil m ms

end Json

namespace Settings

namespace Field

/-- The numbers that fit into a field are below this. -/
def bound : Field → Nat
  | .romBase | .slowCycleMask | .idleTickCycles => UInt32.size
  | .registerHistory | .exceptionHistory | .deadManTimeoutMs => UInt64.size

inductive Admits : Field → Json → Prop
  | natural {f : Field} {n : Nat} (h : n < f.bound) : Admits f (.natural n)
  | null : Admits .deadManTimeoutMs .null

theorem ofName?_name (f : Field) : ofName? f.name.toList = some f := by
  cases f <;> decide

theorem mem_all (f : Field) : f ∈ all := by
  cases f <;> decide

end Field

theorem long?_eq_some_iff {v : Json} {n : UInt32} : long? v = some n ↔ v = .natural n.toNat := by
  cases v with
  | natural m =>
    rw [long?, Json.natural.injEq]
    split
    case isTrue hm =>
      rw [Option.some.injEq, ← UInt32.toNat_inj, UInt32.toNat_ofNat_of_lt' hm]
    case isFalse hm =>
      have hne : m ≠ n.toNat := fun h => hm (h ▸ n.toNat_lt)
      simp [hne]
  | _ => simp [long?]

theorem quad?_eq_some_iff {v : Json} {n : UInt64} : quad? v = some n ↔ v = .natural n.toNat := by
  cases v with
  | natural m =>
    rw [quad?, Json.natural.injEq]
    split
    case isTrue hm =>
      rw [Option.some.injEq, ← UInt64.toNat_inj, UInt64.toNat_ofNat_of_lt' hm]
    case isFalse hm =>
      have hne : m ≠ n.toNat := fun h => hm (h ▸ n.toNat_lt)
      simp [hne]
  | _ => simp [quad?]

theorem fieldJson_injective : Function.Injective fieldJson := by
  intro s t h
  have hlong {a b : UInt32} (hab : Json.natural a.toNat = .natural b.toNat) : a = b :=
    UInt32.toNat_inj.mp (Json.natural.inj hab)
  have hquad {a b : UInt64} (hab : Json.natural a.toNat = .natural b.toNat) : a = b :=
    UInt64.toNat_inj.mp (Json.natural.inj hab)
  obtain ⟨_, _, _, _, _, d⟩ := s
  obtain ⟨_, _, _, _, _, e⟩ := t
  congr 1
  · exact hlong (congrFun h .romBase)
  · exact hlong (congrFun h .slowCycleMask)
  · exact hlong (congrFun h .idleTickCycles)
  · exact hquad (congrFun h .registerHistory)
  · exact hquad (congrFun h .exceptionHistory)
  · have hmaybe := congrFun h .deadManTimeoutMs
    cases d <;> cases e
    · rfl
    · cases hmaybe
    · cases hmaybe
    · rw [hquad hmaybe]

theorem admits_fieldJson (s : Settings) (f : Field) : f.Admits (s.fieldJson f) := by
  cases f with
  | deadManTimeoutMs =>
    rw [fieldJson]
    split
    · exact .null
    · exact .natural (UInt64.toNat_lt _)
  | romBase | slowCycleMask | idleTickCycles => exact .natural (UInt32.toNat_lt _)
  | registerHistory | exceptionHistory => exact .natural (UInt64.toNat_lt _)

theorem exists_withField {f : Field} {v : Json} (h : f.Admits v) (s : Settings) :
    ∃ t, s.withField f v = some t := by
  cases h with
  | null => exact ⟨_, rfl⟩
  | @natural f n hn =>
    rw [← Option.isSome_iff_exists]
    cases f with
    | romBase | slowCycleMask | idleTickCycles =>
      have hlong : long? (.natural n) = some n.toUInt32 := if_pos hn
      simp [withField, hlong]
    | registerHistory | exceptionHistory | deadManTimeoutMs =>
      have hquad : quad? (.natural n) = some n.toUInt64 := if_pos hn
      simp [withField, hquad]

theorem fieldJson_withField {s t : Settings} {f : Field} {v : Json}
    (h : s.withField f v = some t) : t.fieldJson = Function.update s.fieldJson f v := by
  cases f with
  | romBase | slowCycleMask | idleTickCycles =>
    obtain ⟨n, hn, rfl⟩ := Option.map_eq_some_iff.mp h
    rw [long?_eq_some_iff.mp hn]
    funext g
    cases g <;> rfl
  | registerHistory | exceptionHistory =>
    obtain ⟨n, hn, rfl⟩ := Option.map_eq_some_iff.mp h
    rw [quad?_eq_some_iff.mp hn]
    funext g
    cases g <;> rfl
  | deadManTimeoutMs =>
    cases v with
    | null =>
      cases h
      funext g
      cases g <;> rfl
    | natural m =>
      obtain ⟨n, hn, rfl⟩ := Option.map_eq_some_iff.mp h
      rw [quad?_eq_some_iff.mp hn]
      funext g
      cases g <;> rfl
    | _ => cases h

theorem withField_eq_some_iff {s t : Settings} {f : Field} {v : Json} :
    s.withField f v = some t ↔
      f.Admits v ∧ t.fieldJson = Function.update s.fieldJson f v := by
  constructor
  · intro h
    have hupdate := fieldJson_withField h
    have hv : t.fieldJson f = v := by rw [hupdate, Function.update_self]
    exact ⟨hv ▸ admits_fieldJson t f, hupdate⟩
  · rintro ⟨hadmits, hupdate⟩
    obtain ⟨u, hu⟩ := exists_withField hadmits s
    rw [hu, fieldJson_injective ((fieldJson_withField hu).trans hupdate.symm)]

/-- The members that name a field, each with the field that it names. -/
def known (members : List (List Piece × Json)) : List (Field × Json) :=
  members.filterMap fun m =>
    ((Json.decodeText m.1).bind Field.ofName?).map fun f => (f, m.2)

/-- Every field comes once at most, is not among those that were seen, and has a value that it
takes. -/
structure Fits (seen : List Field) (kvs : List (Field × Json)) : Prop where
  distinct : (kvs.map Prod.fst).Nodup
  unseen : ∀ m ∈ kvs, m.1 ∉ seen
  admitted : ∀ m ∈ kvs, m.1.Admits m.2

/-- The fields that are given have their values, and the others are left. -/
structure Carries (s : Settings) (kvs : List (Field × Json)) (t : Settings) : Prop where
  given : ∀ m ∈ kvs, t.fieldJson m.1 = m.2
  left : ∀ f ∉ kvs.map Prod.fst, t.fieldJson f = s.fieldJson f

theorem fits_nil (seen : List Field) : Fits seen [] :=
  ⟨List.nodup_nil, by simp, by simp⟩

theorem fits_cons {seen : List Field} {f : Field} {v : Json} {kvs : List (Field × Json)} :
    Fits seen ((f, v) :: kvs) ↔ f ∉ seen ∧ f.Admits v ∧ Fits (f :: seen) kvs := by
  constructor
  · rintro ⟨hdistinct, hunseen, hadmitted⟩
    obtain ⟨hf, hdistinct⟩ := List.nodup_cons.mp hdistinct
    refine ⟨hunseen _ List.mem_cons_self, hadmitted _ List.mem_cons_self, hdistinct, ?_, ?_⟩
    · intro m hm hseen
      rcases List.mem_cons.mp hseen with heq | hseen
      · exact hf (List.mem_map.mpr ⟨m, hm, heq⟩)
      · exact hunseen m (List.mem_cons_of_mem _ hm) hseen
    · exact fun m hm => hadmitted m (List.mem_cons_of_mem _ hm)
  · rintro ⟨hf, hv, hdistinct, hunseen, hadmitted⟩
    refine ⟨List.nodup_cons.mpr ⟨?_, hdistinct⟩, ?_, ?_⟩
    · intro hmem
      obtain ⟨m, hm, heq⟩ := List.mem_map.mp hmem
      exact hunseen m hm (heq ▸ List.mem_cons_self)
    · rintro m (_ | ⟨_, hm⟩)
      · exact hf
      · exact fun hseen => hunseen m hm (List.mem_cons_of_mem f hseen)
    · rintro m (_ | ⟨_, hm⟩)
      · exact hv
      · exact hadmitted m hm

theorem Fits.not_mem {seen : List Field} {kvs : List (Field × Json)} (h : Fits seen kvs)
    {f : Field} (hf : f ∈ seen) : f ∉ kvs.map Prod.fst := by
  intro hmem
  obtain ⟨m, hm, rfl⟩ := List.mem_map.mp hmem
  exact h.unseen m hm hf

theorem carries_nil {s t : Settings} : Carries s [] t ↔ s = t := by
  constructor
  · intro h
    exact (fieldJson_injective (funext fun f => h.left f List.not_mem_nil)).symm
  · rintro rfl
    exact ⟨by simp, fun _ _ => rfl⟩

theorem carries_cons {s u t : Settings} {f : Field} {v : Json} {kvs : List (Field × Json)}
    (hu : u.fieldJson = Function.update s.fieldJson f v) (hf : f ∉ kvs.map Prod.fst) :
    Carries s ((f, v) :: kvs) t ↔ Carries u kvs t := by
  constructor
  · rintro ⟨hgiven, hleft⟩
    refine ⟨fun m hm => hgiven m (List.mem_cons_of_mem _ hm), fun g hg => ?_⟩
    rw [hu]
    by_cases hgf : g = f
    · rw [hgf, Function.update_self]
      exact hgiven (f, v) List.mem_cons_self
    · rw [Function.update_of_ne hgf]
      exact hleft g fun hmem => (List.mem_cons.mp hmem).elim hgf hg
  · rintro ⟨hgiven, hleft⟩
    refine ⟨?_, fun g hg => ?_⟩
    · rintro m (_ | ⟨_, hm⟩)
      · rw [hleft f hf, hu, Function.update_self]
      · exact hgiven m hm
    · rw [List.map_cons, List.mem_cons, not_or] at hg
      rw [hleft g hg.2, hu, Function.update_of_ne hg.1]

theorem withMembers_eq_some_iff {seen : List Field} {s t : Settings}
    {members : List (List Piece × Json)} :
    withMembers seen s members = some t ↔
      (∀ m ∈ members, (Json.decodeText m.1).isSome) ∧ Fits seen (known members) ∧
        Carries s (known members) t := by
  -- the fields seen and the settings so far are those in front of the members that are left
  induction members generalizing seen s with
  | nil => simp [withMembers, known, fits_nil, carries_nil]
  | cons m members ih =>
    obtain ⟨name, v⟩ := m
    rw [List.forall_mem_cons]
    cases hname : Json.decodeText name with
    | none => simp [withMembers, hname]
    | some cs =>
      cases hfield : Field.ofName? cs with
      | none =>
        have hknown : known ((name, v) :: members) = known members := by
          simp [known, hname, hfield]
        simp only [withMembers, hname, hfield, hknown, Option.bind_some, ih, Option.isSome_some,
          true_and]
      | some f =>
        have hknown : known ((name, v) :: members) = (f, v) :: known members := by
          simp [known, hname, hfield]
        rw [hknown, fits_cons, withMembers, hname, Option.bind_some]
        simp only [hfield]
        split
        case isTrue hseen => simp [hseen]
        case isFalse hseen =>
          simp only [hseen, not_false_eq_true, true_and, Option.isSome_some]
          constructor
          · intro h
            obtain ⟨u, hu, h⟩ := Option.bind_eq_some_iff.mp h
            obtain ⟨hadmits, hu⟩ := withField_eq_some_iff.mp hu
            obtain ⟨hnames, hfits, hcarries⟩ := ih.mp h
            have hf := hfits.not_mem List.mem_cons_self
            exact ⟨hnames, ⟨hadmits, hfits⟩, (carries_cons hu hf).mpr hcarries⟩
          · rintro ⟨hnames, ⟨hadmits, hfits⟩, hcarries⟩
            have hf := hfits.not_mem List.mem_cons_self
            obtain ⟨u, hu⟩ := exists_withField hadmits s
            rw [hu, Option.bind_some, ih]
            exact ⟨hnames, hfits, (carries_cons (fieldJson_withField hu) hf).mp hcarries⟩

theorem Fits.exists_carries {seen : List Field} {kvs : List (Field × Json)} (h : Fits seen kvs)
    (s : Settings) : ∃ t, Carries s kvs t := by
  induction kvs generalizing seen s with
  | nil => exact ⟨s, carries_nil.mpr rfl⟩
  | cons m kvs ih =>
    obtain ⟨f, v⟩ := m
    obtain ⟨-, hadmits, hfits⟩ := fits_cons.mp h
    obtain ⟨u, hu⟩ := exists_withField hadmits s
    obtain ⟨t, ht⟩ := ih hfits u
    have hf := hfits.not_mem List.mem_cons_self
    exact ⟨t, (carries_cons (fieldJson_withField hu) hf).mpr ht⟩

theorem parse_of_spells {v : Json} {cs : List Char} (h : Json.SpellsPadded v cs) :
    parse cs = ofJson? v := by
  rw [parse, Json.parse_eq_some_iff.mpr h, Option.bind_some]

theorem parse_object_eq_some_iff {members : List (List Piece × Json)} {cs : List Char}
    (h : Json.SpellsPadded (.object members) cs) {s : Settings} :
    parse cs = some s ↔
      (∀ m ∈ members, (Json.decodeText m.1).isSome) ∧ Fits [] (known members) ∧
        Carries default (known members) s := by
  rw [parse_of_spells h, ofJson?, withMembers_eq_some_iff]

theorem parse_object_eq_none_of_name {members : List (List Piece × Json)} {cs : List Char}
    (h : Json.SpellsPadded (.object members) cs) {m : List Piece × Json} (hm : m ∈ members)
    (hname : Json.decodeText m.1 = none) : parse cs = none := by
  rw [Option.eq_none_iff_forall_ne_some]
  intro s hs
  have hsome := ((parse_object_eq_some_iff h).mp hs).1 m hm
  rw [hname] at hsome
  cases hsome

theorem parse_object_eq_none {members : List (List Piece × Json)} {cs : List Char}
    (h : Json.SpellsPadded (.object members) cs) (hfits : ¬Fits [] (known members)) :
    parse cs = none := by
  rw [Option.eq_none_iff_forall_ne_some]
  exact fun s hs => hfits ((parse_object_eq_some_iff h).mp hs).2.1

theorem isPlain_name (f : Field) : ∀ c ∈ f.name.toList, c ≠ '"' ∧ c ≠ '\\' ∧ ' ' ≤ c := by
  -- the quote, the backslash and the control characters are all below the underscore
  have hname : (f.name.toList.all fun c => '_'.toNat ≤ c.toNat) = true := by
    cases f <;> decide
  intro c hc
  have hle : '_'.toNat ≤ c.toNat := of_decide_eq_true (List.all_eq_true.mp hname c hc)
  refine ⟨?_, ?_, ?_⟩
  · rintro rfl
    exact absurd hle (by decide)
  · rintro rfl
    exact absurd hle (by decide)
  · exact Char.le_def.mpr (UInt32.le_iff_toNat_le.mpr (Nat.le_trans (by decide) hle))

theorem spells_fieldJson (s : Settings) (f : Field) :
    Json.Spells (s.fieldJson f) (s.fieldJson f).render := by
  have hadmits := admits_fieldJson s f
  generalize s.fieldJson f = v at hadmits
  cases hadmits with
  | natural => exact .natural _
  | null => exact .null

def members (s : Settings) : List (List Piece × Json) :=
  Field.all.map fun f => (Json.plainText f.name, s.fieldJson f)

theorem forall_mem_members {s : Settings} {P : List Piece × Json → Prop}
    (h : ∀ f, P (Json.plainText f.name, s.fieldJson f)) : ∀ m ∈ s.members, P m := by
  intro m hm
  obtain ⟨f, -, rfl⟩ := List.mem_map.mp hm
  exact h f

theorem spells_render (s : Settings) : Json.SpellsPadded s.toJson s.render := by
  have hmembers : Json.SpellsMembers s.members (Json.renderMembers s.members) := by
    apply Json.spellsMembers_render
    · exact List.cons_ne_nil _ _
    · exact forall_mem_members fun f => Json.spellsText_plain (isPlain_name f)
    · exact forall_mem_members (spells_fieldJson s)
  exact (Json.Spells.members hmembers).padded

theorem known_members (s : Settings) :
    known s.members = Field.all.map fun f => (f, s.fieldJson f) := by
  rw [known, members, List.filterMap_map, ← List.filterMap_eq_map]
  congr 1
  funext f
  simp [Json.plainText, Json.decodeText_plain, Field.ofName?_name]

theorem fits_members (s : Settings) : Fits [] (known s.members) := by
  rw [known_members]
  refine ⟨?_, fun m hm => List.not_mem_nil, fun m hm => ?_⟩
  · rw [List.map_map]
    exact (by decide : Field.all.Nodup)
  · obtain ⟨f, -, rfl⟩ := List.mem_map.mp hm
    exact admits_fieldJson s f

theorem carries_members (s : Settings) : Carries default (known s.members) s := by
  rw [known_members]
  refine ⟨fun m hm => ?_, fun f hf => ?_⟩
  · obtain ⟨f, -, rfl⟩ := List.mem_map.mp hm
    rfl
  · rw [List.map_map] at hf
    exact absurd (List.mem_map.mpr ⟨f, f.mem_all, rfl⟩) hf

theorem parse_render (s : Settings) : parse s.render = some s := by
  have hnames : ∀ m ∈ s.members, (Json.decodeText m.1).isSome :=
    forall_mem_members fun f => by
      rw [Json.plainText, Json.decodeText_plain]
      rfl
  exact (parse_object_eq_some_iff (spells_render s)).mpr
    ⟨hnames, fits_members s, carries_members s⟩

/-- Settings are spelled by their compact text and read back from it. From any object come the
values that it gives and the defaults for the others, unless a name is no text, as one with half of
a surrogate pair in it, or a field is given twice or with a value that it does not take. -/
theorem codec :
    (∀ s : Settings, Json.SpellsPadded s.toJson s.render ∧ parse s.render = some s) ∧
    ∀ (members : List (List Piece × Json)) (text : List Char),
      Json.SpellsPadded (.object members) text →
      ((∀ m ∈ members, (Json.decodeText m.1).isSome) → Fits [] (known members) →
        ∃ s, parse text = some s ∧ Carries default (known members) s) ∧
      (∀ m ∈ members, Json.decodeText m.1 = none → parse text = none) ∧
      (¬((known members).map Prod.fst).Nodup → parse text = none) ∧
      (∀ f n, (f, .natural n) ∈ known members → f.bound ≤ n → parse text = none) ∧
      (∀ f ds, (f, .decimal ds) ∈ known members → parse text = none) ∧
      ∀ f, (f, .null) ∈ known members → f ≠ .deadManTimeoutMs → parse text = none := by
  refine ⟨fun s => ⟨spells_render s, parse_render s⟩, fun members text htext =>
    ⟨?_, ?_, ?_, ?_, ?_, ?_⟩⟩
  · intro hnames hfits
    obtain ⟨s, hs⟩ := hfits.exists_carries default
    exact ⟨s, (parse_object_eq_some_iff htext).mpr ⟨hnames, hfits, hs⟩, hs⟩
  · intro m hm hname
    exact parse_object_eq_none_of_name htext hm hname
  · intro hrepeated
    exact parse_object_eq_none htext fun hfits => hrepeated hfits.distinct
  · intro f n hm hn
    refine parse_object_eq_none htext fun hfits => ?_
    cases hfits.admitted _ hm with
    | natural h => exact absurd h (Nat.not_lt.mpr hn)
  · intro f ds hm
    refine parse_object_eq_none htext fun hfits => ?_
    cases hfits.admitted _ hm
  · intro f hm hf
    refine parse_object_eq_none htext fun hfits => ?_
    cases hfits.admitted _ hm
    exact hf rfl

theorem codec_among_unknown :
    ∃ s, parse "\x7b \"idle_tick_cycles\": 4, \"x\": [\x7b\"rom_base\": -1.5e3\x7d],
        \"dead_man_timeout_ms\": null\x7d".toList = some s ∧
      Carries default [(.idleTickCycles, .natural 4), (.deadManTimeoutMs, .null)] s := by
  have hread : Json.parse "\x7b \"idle_tick_cycles\": 4, \"x\": [\x7b\"rom_base\": -1.5e3\x7d],
        \"dead_man_timeout_ms\": null\x7d".toList =
      some (.object [(Json.plainText "idle_tick_cycles", .natural 4),
        (Json.plainText "x",
          .array [.object [(Json.plainText "rom_base", .decimal "-1.5e3".toList)]]),
        (Json.plainText "dead_man_timeout_ms", .null)]) := by
    simp only [String.reduceToList]
    rfl
  have hfits : Fits [] [(.idleTickCycles, .natural 4), (.deadManTimeoutMs, .null)] :=
    fits_cons.mpr ⟨List.not_mem_nil, .natural (by decide),
      fits_cons.mpr ⟨by decide, .null, fits_nil _⟩⟩
  exact (codec.2 _ _ (Json.parse_eq_some_iff.mp hread)).1 (by decide) hfits

-- A field that is named with an escape is the same field.
example : parse "\x7b\"rom_base\": 1, \"rom\\u005fbase\": 1\x7d".toList = none := by
  simp only [String.reduceToList]
  rfl

end Settings
end Mc68000
