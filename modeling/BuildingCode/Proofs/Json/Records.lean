import BuildingCode.Json.Fields
import BuildingCode.Proofs.Json.Numerals

/-! Records that come back from their texts. A record is written without the fields that are absent, and
every slot finds again the field that was written for it, since no two of them share a name. What
cannot come back is a number whose digits do not read back as the number. -/
namespace BuildingCode.Json
open Number

/-- The number is what the digits that it is written with are read as. -/
def ReadsBack (x : Float) : Prop := (ofFloat x).asFloat = some x

instance : DecidablePred ReadsBack := fun x => inferInstanceAs (Decidable ((ofFloat x).asFloat = some x))

theorem ReadsBack.isFinite {x : Float} (h : ReadsBack x) : x.isFinite := by
  by_contra infinite
  unfold ReadsBack ofFloat at h
  rw [if_neg infinite] at h
  cases h

/-- The compact text of a value is read as that value. -/
def Recovered (encode : α → Json) (decode : Json → Option α) (a : α) : Prop :=
  (parse (encode a).render).bind decode = some a

section
variable {encode : α → Json} {decode : Json → Option α}

theorem recovered_iff {a : α} (legible : (encode a).Legible) :
    Recovered encode decode a ↔ decode (encode a) = some a := by
  rw [Recovered, parse_render legible, Option.bind_some]

theorem mapM_map_eq_some_iff {β : Type _} {write : α → β} {read : β → Option α} {as : List α} :
    (as.map write).mapM read = some as ↔ ∀ a ∈ as, read (write a) = some a := by
  induction as with
  | nil => simp
  | cons a as ih =>
    rw [List.map_cons, List.mapM_cons, List.forall_mem_cons, ← ih]
    cases read (write a) <;> cases (as.map write).mapM read <;> simp

theorem asListOf_map_iff {as : List α} :
    asListOf decode (.list (as.map encode)) = some as ↔ ∀ a ∈ as, decode (encode a) = some a :=
  mapM_map_eq_some_iff

theorem legible_list {items : List Json} (legible : ∀ j ∈ items, j.Legible) :
    (Json.list items).Legible := by
  change LegibleItems items
  induction items with
  | nil => trivial
  | cons j js ih =>
    obtain ⟨first, others⟩ := List.forall_mem_cons.mp legible
    exact ⟨first, ih others⟩

theorem legible_map {as : List α} (legible : ∀ a ∈ as, (encode a).Legible) :
    (Json.list (as.map encode)).Legible :=
  legible_list (List.forall_mem_map.mpr legible)

end

theorem legible_object {fields : List (String × Json)} (legible : ∀ f ∈ fields, f.2.Legible) :
    (Json.object fields).Legible := by
  change LegibleFields fields
  induction fields with
  | nil => trivial
  | cons f fields ih =>
    obtain ⟨first, others⟩ := List.forall_mem_cons.mp legible
    exact ⟨first, ih others⟩

@[simp] theorem legible_text (s : String) : (text s).Legible := trivial

@[simp] theorem legible_bool (b : Bool) : (bool b).Legible := trivial

def LegibleSlot (slot : Option Json) : Prop := ∀ j ∈ slot, j.Legible

@[simp] theorem legibleSlot_some {j : Json} : LegibleSlot (some j) ↔ j.Legible := by
  simp [LegibleSlot]

@[simp] theorem asText_text (s : String) : asText (text s) = some s := rfl

section
variable {read : Json → Option α} {j : Json}

@[simp] theorem required_some : required read (some j) = read j := rfl

@[simp] theorem defaulted_some {fallback : α} : defaulted fallback read (some j) = read j := rfl

end

section
variable {fields : List (String × Option Json)}

theorem legible_record (legible : ∀ f ∈ fields, LegibleSlot f.2) : (record fields).Legible := by
  refine legible_object fun f mem => ?_
  obtain ⟨⟨name, value⟩, listed, given⟩ := List.mem_filterMap.mp mem
  obtain ⟨j, some, rfl⟩ := Option.map_eq_some_iff.mp given
  exact legible (name, value) listed j some

theorem filter_given (wanted : String → Bool) :
    (fields.filterMap fun (name, value) => value.map (name, ·)).filter (fun f => wanted f.1) =
      (fields.filter fun f => wanted f.1).filterMap fun (name, value) => value.map (name, ·) := by
  rw [List.filter_filterMap, List.filterMap_filter]
  congr 1
  funext ⟨name, value⟩
  cases value <;> simp [Option.filter]

theorem filter_eq_singleton {wanted : String → Bool} {f : String × Option Json} (mem : f ∈ fields)
    (only : (fields.map (·.1)).filter wanted = [f.1]) :
    fields.filter (fun f => wanted f.1) = [f] := by
  have named : wanted f.1 = true := by
    have listed : f.1 ∈ (fields.map (·.1)).filter wanted := only ▸ List.mem_singleton_self _
    exact (List.mem_filter.mp listed).2
  rw [List.filter_map] at only
  obtain ⟨g, alone, _⟩ := List.map_eq_singleton_iff.mp only
  have inside : f ∈ fields.filter (wanted ∘ (·.1)) := List.mem_filter.mpr ⟨mem, named⟩
  rw [alone, List.mem_singleton] at inside
  rw [inside]
  exact alone

theorem single_record {names : List String} {f : String × Option Json} (mem : f ∈ fields)
    (only : (fields.map (·.1)).filter names.contains = [f.1]) :
    single (fields.filterMap fun (name, value) => value.map (name, ·)) names = some f.2 := by
  obtain ⟨name, value⟩ := f
  unfold single
  rw [filter_given, filter_eq_singleton mem only]
  cases value <;> rfl

theorem mapM_single_record {names : List (List String)} {rest : List (String × Option Json)}
    (listed : rest ⊆ fields)
    (own : names.map (fun ns => (fields.map (·.1)).filter ns.contains) = rest.map fun f => [f.1]) :
    names.mapM (single (fields.filterMap fun (name, value) => value.map (name, ·))) =
      some (rest.map (·.2)) := by
  induction names generalizing rest with
  | nil =>
    cases rest with
    | nil => rfl
    | cons f rest => cases own
  | cons ns names ih =>
    cases rest with
    | nil => cases own
    | cons f rest =>
      obtain ⟨here, own⟩ := List.cons.inj own
      obtain ⟨inside, listed⟩ := List.cons_subset.mp listed
      rw [List.mapM_cons, single_record inside here, ih listed own]
      rfl

theorem slots_record {names : List (List String)}
    (own : names.map (fun ns => (fields.map (·.1)).filter ns.contains) = fields.map fun f => [f.1]) :
    slots names (record fields) = some ⟨false, fields.map (·.2)⟩ := by
  unfold slots record
  dsimp only
  rw [mapM_single_record (List.Subset.refl fields) own]
  rfl

end

end BuildingCode.Json
