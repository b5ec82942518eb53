import BuildingCode.Clause.Id
import BuildingCode.Proofs.Outcome
import BuildingCode.Proofs.Text.Digits
import Mathlib.Data.List.Forall2

/-! The texts of clause numbers. Each segment is written in one way only, so the texts that are parsed are
those that are printed. -/
namespace BuildingCode.ClauseId
open Outcome

/-- The part writes the segment: digits without a leading zero, of which it is the value. -/
structure Writes (part : List Char) (s : Segment) : Prop where
  filled : part ≠ []
  digits : ∀ c ∈ part, Text.isDigit c = true
  leading : part.head? ≠ some '0'
  value : Text.digitsValue part = s.val.toNat

section
variable {part : List Char} {s : Segment}

def numeral (s : Segment) : List Char := Text.digitsOf s.val.toNat

theorem writes_numeral (s : Segment) : Writes (numeral s) s where
  filled := Text.digitsOf_ne_nil _
  digits _ mem := Text.isDigit_of_mem_digitsOf mem
  leading := Text.head?_digitsOf_ne (UInt32.lt_iff_toNat_lt.mp s.property)
  value := Text.digitsValue_digitsOf _

theorem Writes.eq_numeral (h : Writes part s) : part = numeral s := by
  obtain ⟨c, cs, rfl⟩ := List.exists_cons_of_ne_nil h.filled
  have first : c ≠ '0' := fun zero => h.leading (congrArg some zero)
  rw [numeral, ← h.value, (Text.digitsOf_digitsValue_of_leading first h.digits).2]

theorem Writes.dotless (h : Writes part s) : '.' ∉ part := by
  intro mem
  have digit := h.digits '.' mem
  cases digit

theorem parseSegment_eq_ok_iff {position : Nat} : parseSegment position part = .ok s ↔ Writes part s := by
  constructor
  · intro h
    unfold parseSegment at h
    split at h
    · cases h
    · next filled =>
      split at h
      · cases h
      · next digits =>
        split at h
        · cases h
        · split at h
          · cases h
          · next leading =>
            dsimp only at h
            split at h
            · next fits =>
              split at h
              · cases h
                exact ⟨filled, by simpa using digits, leading, (UInt32.toNat_ofNat_of_lt' fits).symm⟩
              · cases h
            · cases h
  · intro h
    have digits : (!part.all Text.isDigit) ≠ true := by simpa using h.digits
    have zero : part ≠ ['0'] := fun same => h.leading (same ▸ rfl)
    have fits : s.val.toNat < UInt32.size := s.val.toNat_lt_size
    have positive : 0 < UInt32.ofNat s.val.toNat := by simpa using s.property
    unfold parseSegment
    rw [if_neg h.filled, if_neg digits, if_neg zero, if_neg h.leading]
    dsimp only
    rw [h.value, if_pos fits, dif_pos positive]
    simp

end

theorem forall₂_writes_iff {ps : List (List Char)} {segments : List Segment} :
    List.Forall₂ Writes ps segments ↔ ps = segments.map numeral := by
  constructor
  · intro h
    have printed := List.forall₂_map_right_iff.mpr (h.imp fun _ _ writes => writes.eq_numeral)
    rwa [List.forall₂_eq_eq_eq] at printed
  · rintro rfl
    exact List.forall₂_map_left_iff.mpr (List.forall₂_same.mpr fun s _ => writes_numeral s)

/-- The text joins one to four parts by dots, and each of them writes a segment. -/
def Spells (label : String) (segments : List Segment) : Prop :=
  ∃ ps : List (List Char), 1 ≤ ps.length ∧ ps.length ≤ 4 ∧ label.toList = ['.'].intercalate ps ∧
    List.Forall₂ Writes ps segments

theorem parts_eq_splitOn (cs : List Char) : parts cs = cs.splitOn '.' := by
  fun_induction parts cs with
  | case1 => rfl
  | case2 cs ih =>
    rw [ih, List.splitOn, List.splitOn, List.splitOnP_cons_eq_if_modifyHead,
      if_pos (beq_self_eq_true _)]
  | case3 c cs other p ps split ih =>
    rw [List.splitOn, List.splitOnP_cons_eq_if_modifyHead, if_neg (by simpa using other)]
    change _ = (cs.splitOn '.').modifyHead (c :: ·)
    rw [← ih, split]
    rfl
  | case4 c cs _ empty ih => exact absurd (ih.symm.trans empty) (List.splitOn_ne_nil _ _)

theorem parts_ne_nil (cs : List Char) : parts cs ≠ [] := by
  rw [parts_eq_splitOn]
  exact List.splitOn_ne_nil _ _

theorem parseParts_eq_ok_iff {count position : Nat} (room : position ≤ maxSegments)
    {ps : List (List Char)} {segments : List Segment} :
    parseParts count position ps = .ok segments ↔
      position + ps.length ≤ maxSegments ∧ List.Forall₂ Writes ps segments := by
  induction ps generalizing position segments with
  | nil =>
    rw [parseParts]
    constructor
    · rintro ⟨⟩
      exact ⟨room, .nil⟩
    · rintro ⟨_, ⟨⟩⟩
      rfl
  | cons part rest ih =>
    constructor
    · intro h
      rw [parseParts] at h
      split at h
      · cases h
      · next space =>
        obtain ⟨s, first, h⟩ := bind_eq_ok.mp h
        obtain ⟨more, others, h⟩ := bind_eq_ok.mp h
        cases h
        obtain ⟨fits, all⟩ := (ih (by omega)).mp others
        rw [List.length_cons]
        exact ⟨by omega, .cons (parseSegment_eq_ok_iff.mp first) all⟩
    · rintro ⟨fits, all⟩
      rw [List.length_cons] at fits
      cases all with
      | cons first others =>
        rw [parseParts, if_neg (by omega)]
        refine bind_eq_ok.mpr ⟨_, parseSegment_eq_ok_iff.mpr first, ?_⟩
        exact bind_eq_ok.mpr ⟨_, (ih (by omega)).mpr ⟨by omega, others⟩, rfl⟩

def top (id : ClauseId) : UInt32 := (id.segments.head id.nonempty).val

variable {bound : UInt32} {label : String} {id : ClauseId}

theorem parse_of_writes (h : List.Forall₂ Writes (parts label.toList) id.segments) :
    parse bound label =
      if bound < id.top then .error (.topSegmentOutOfRange id.top bound) else .ok id := by
  have filled : label ≠ "" := by
    rintro rfl
    obtain ⟨s, _, first, _⟩ := List.forall₂_cons_left_iff.mp (show List.Forall₂ Writes [[]] _ from h)
    exact first.filled rfl
  have sized : id.segments ≠ [] ∧ id.segments.length ≤ maxSegments := ⟨id.nonempty, id.length_le⟩
  have read : parseParts (parts label.toList).length 0 (parts label.toList) = .ok id.segments := by
    refine (parseParts_eq_ok_iff (Nat.zero_le _)).mpr ⟨?_, h⟩
    rw [Nat.zero_add, h.length_eq]
    exact id.length_le
  unfold parse
  dsimp only
  rw [if_neg filled, read]
  exact (dif_pos sized).trans rfl

theorem parse_eq_ok_iff :
    parse bound label = .ok id ↔ List.Forall₂ Writes (parts label.toList) id.segments ∧ id.top ≤ bound := by
  constructor
  · intro h
    unfold parse at h
    dsimp only at h
    split at h
    · cases h
    · obtain ⟨segments, read, h⟩ := bind_eq_ok.mp h
      split at h
      · split at h
        · cases h
        · next within =>
          cases h
          exact ⟨((parseParts_eq_ok_iff (Nat.zero_le _)).mp read).2, UInt32.not_lt.mp within⟩
      · cases h
  · rintro ⟨all, within⟩
    rw [parse_of_writes all, if_neg (UInt32.not_lt.mpr within)]

theorem toList_text (id : ClauseId) : id.text.toList = ['.'].intercalate (id.segments.map numeral) := by
  unfold text values
  rw [String.toList_intercalate, List.map_map, List.map_map]
  congr 1
  exact List.map_congr_left fun s _ => String.toList_ofList

theorem splitOn_intercalate_numerals {segments : List Segment} (filled : segments ≠ []) :
    (['.'].intercalate (segments.map numeral)).splitOn '.' = segments.map numeral := by
  refine List.splitOn_intercalate '.' ?_ (by simpa using filled)
  intro part mem
  obtain ⟨s, _, rfl⟩ := List.mem_map.mp mem
  exact (writes_numeral s).dotless

theorem text_of_parse (h : parse bound label = .ok id) : id.text = label := by
  apply String.toList_injective
  rw [toList_text, ← forall₂_writes_iff.mp (parse_eq_ok_iff.mp h).1, parts_eq_splitOn,
    List.intercalate_splitOn]

theorem forall₂_parts_text (id : ClauseId) :
    List.Forall₂ Writes (parts id.text.toList) id.segments := by
  rw [toList_text, parts_eq_splitOn, splitOn_intercalate_numerals id.nonempty]
  exact forall₂_writes_iff.mpr rfl

theorem parse_text (bound : UInt32) (id : ClauseId) : parse bound id.text =
    if bound < id.top then .error (.topSegmentOutOfRange id.top bound) else .ok id :=
  parse_of_writes id.forall₂_parts_text

theorem spells_iff {segments : List Segment} :
    Spells label segments ↔ List.Forall₂ Writes (parts label.toList) segments ∧
      segments.length ≤ maxSegments := by
  rw [parts_eq_splitOn]
  constructor
  · rintro ⟨ps, filled, short, joined, all⟩
    have same := forall₂_writes_iff.mp all
    have present : segments ≠ [] := by
      rintro rfl
      simp [same] at filled
    rw [joined, same, splitOn_intercalate_numerals present]
    exact ⟨forall₂_writes_iff.mpr rfl, all.length_eq ▸ short⟩
  · rintro ⟨all, short⟩
    refine ⟨_, ?_, all.length_eq ▸ short, (List.intercalate_splitOn '.').symm, all⟩
    exact List.length_pos_iff.mpr (List.splitOn_ne_nil _ _)

theorem top_parent {p : ClauseId} (h : id.parent = some p) : p.top = id.top := by
  unfold parent at h
  split at h
  · cases h
    exact congrArg Subtype.val (List.head_dropLast _)
  · cases h

theorem ancestors_of_parent {p : ClauseId} (h : id.parent = some p) :
    id.ancestors = p :: p.ancestors := by
  rw [ancestors]
  split <;> simp_all

theorem top_of_mem_ancestors : ∀ q ∈ id.ancestors, q.top = id.top := by
  fun_induction ancestors id with
  | case1 id p above ih =>
    rw [List.forall_mem_cons]
    exact ⟨top_parent above, fun q mem => (ih q mem).trans (top_parent above)⟩
  | case2 id _ => simp

/-- Exactly the texts that spell a number within the bound are parsed, to what they spell, and printing gives
them back; every number within the bound is parsed from what it is printed as, and no two texts give the
same one; what encloses a parsed number is within the bound as well. -/
theorem parse_spells (bound : UInt32) :
    (∀ label segments, (∃ id, parse bound label = .ok id ∧ id.segments = segments) ↔
      Spells label segments ∧ ∀ s ∈ segments.head?, s.val ≤ bound) ∧
    (∀ label id, parse bound label = .ok id → id.text = label) ∧
    (∀ id, id.top ≤ bound → parse bound id.text = .ok id) ∧
    (∀ label label' id, parse bound label = .ok id → parse bound label' = .ok id → label = label') ∧
    ∀ label id p, parse bound label = .ok id → id.parent = some p → parse bound p.text = .ok p := by
  have printed : ∀ id : ClauseId, id.top ≤ bound → parse bound id.text = .ok id := by
    intro id within
    rw [parse_text, if_neg (UInt32.not_lt.mpr within)]
  refine ⟨fun label segments => ?_, fun _ _ parsed => text_of_parse parsed, printed, ?_, ?_⟩
  · rw [spells_iff]
    constructor
    · rintro ⟨id, parsed, rfl⟩
      obtain ⟨all, within⟩ := parse_eq_ok_iff.mp parsed
      refine ⟨⟨all, id.length_le⟩, fun s first => ?_⟩
      rw [List.head?_eq_some_head id.nonempty] at first
      cases first
      exact within
    · rintro ⟨⟨all, short⟩, within⟩
      have filled : segments ≠ [] := by
        rintro rfl
        exact parts_ne_nil _ (List.forall₂_nil_right_iff.mp all)
      let id : ClauseId := ⟨segments, filled, short⟩
      have within : id.top ≤ bound := within _ (List.head?_eq_some_head filled)
      exact ⟨id, parse_eq_ok_iff.mpr ⟨all, within⟩, rfl⟩
  · intro label label' id parsed parsed'
    rw [← text_of_parse parsed, text_of_parse parsed']
  · intro label id p parsed above
    have within : p.top ≤ bound := top_parent above ▸ (parse_eq_ok_iff.mp parsed).2
    exact printed p within

theorem parse_spells_largest :
    let outer : ClauseId := ⟨[⟨4294967295, by decide⟩], List.cons_ne_nil _ _, by decide⟩
    let inner : ClauseId :=
      ⟨[⟨4294967295, by decide⟩, ⟨10, by decide⟩], List.cons_ne_nil _ _, by decide⟩
    inner.text = "4294967295.10" ∧ parse 4294967295 "4294967295.10" = .ok inner ∧
      (∀ label, parse 4294967295 label = .ok inner → label = "4294967295.10") ∧
      inner.parent = some outer ∧ parse 4294967295 outer.text = .ok outer := by
  intro outer inner
  have printed : inner.text = "4294967295.10" := by decide +kernel
  obtain ⟨_, _, parses, unique, encloses⟩ := parse_spells 4294967295
  have parsed := parses inner (by decide)
  rw [printed] at parsed
  exact ⟨printed, parsed, fun label again => unique label _ inner again parsed, rfl,
    encloses _ inner outer parsed rfl⟩

end BuildingCode.ClauseId
