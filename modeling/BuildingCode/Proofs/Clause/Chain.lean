import BuildingCode.Clause.Forest
import Mathlib.Data.List.Chain
import Mathlib.Data.List.Nodup
import Mathlib.Data.Set.Finite.Basic
import Mathlib.Logic.Relation
import Mathlib.Order.WellFounded

/-! Where the parent links of records lead. From a record they end at one without a parent, run
into a loop, or stop at a parent that no record has. -/
namespace BuildingCode.Clause
open Relation

def Above (records : List Record) (r q : Record) : Prop := q ∈ records ∧ r.parent = some q.id

def Rooted (records : List Record) (r : Record) : Prop :=
  ∃ top, ReflTransGen (Above records) r top ∧ top.parent = none

def Loops (records : List Record) (r : Record) : Prop :=
  ∃ q, ReflTransGen (Above records) r q ∧ TransGen (Above records) q q

def Dangles (records : List Record) (r : Record) : Prop :=
  ∃ p, r.parent = some p ∧ ∀ q ∈ records, q.id ≠ p

def Distinct (records : List Record) : Prop := (records.map (·.id)).Nodup

instance (records : List Record) : Decidable (Distinct records) :=
  inferInstanceAs (Decidable (records.map (·.id)).Nodup)

def Linked (records : List Record) (parent child : String) : Prop :=
  ∃ r ∈ records, r.parent = some parent ∧ r.id = child

variable {records : List Record} {r q : Record}

theorem Distinct.eq_of_id (distinct : Distinct records) (hr : r ∈ records) (hq : q ∈ records)
    (same : r.id = q.id) : r = q :=
  List.inj_on_of_nodup_map distinct hr hq same

theorem Above.unique (distinct : Distinct records) {q' : Record} (h : Above records r q)
    (h' : Above records r q') : q = q' :=
  distinct.eq_of_id h.1 h'.1 (Option.some.inj (h.2.symm.trans h'.2))

theorem Above.rooted (h : Above records r q) (rooted : Rooted records q) : Rooted records r := by
  obtain ⟨top, chain, ends⟩ := rooted
  exact ⟨top, chain.head h, ends⟩

theorem rooted_of_parent_eq_none (h : r.parent = none) : Rooted records r :=
  ⟨r, .refl, h⟩

/-- The parent links of a record lead nowhere but to where they end. -/
theorem Rooted.not_transGen (distinct : Distinct records) (rooted : Rooted records r) :
    ¬TransGen (Above records) r r := by
  obtain ⟨top, chain, ends⟩ := rooted
  induction chain using ReflTransGen.head_induction_on with
  | refl =>
    intro loop
    obtain ⟨q, step, _⟩ := TransGen.head'_iff.mp loop
    rw [Above, ends] at step
    cases step.2
  | head step _ ih =>
    intro loop
    obtain ⟨q, step', back⟩ := TransGen.head'_iff.mp loop
    obtain rfl := step.unique distinct step'
    exact ih (TransGen.tail' back step)

theorem rooted_of_no_loop (loops : ∀ q ∈ records, ¬TransGen (Above records) q q)
    (dangles : ∀ q ∈ records, ¬Dangles records q) (mem : r ∈ records) : Rooted records r := by
  -- Whatever stands above a record comes before it; without loops this order is well founded.
  let R : {q // q ∈ records} → {q // q ∈ records} → Prop :=
    fun q r => TransGen (Above records) r.1 q.1
  have : Finite {q // q ∈ records} := records.finite_toSet
  have : IsTrans _ R := ⟨fun _ _ _ h h' => h'.trans h⟩
  have : Std.Irrefl R := ⟨fun q loop => loops q.1 q.2 loop⟩
  have founded : WellFounded R := Finite.wellFounded_of_trans_of_irrefl R
  have rooted : ∀ s : {q // q ∈ records}, Rooted records s.1 := by
    intro s
    induction s using founded.induction with
    | _ s ih =>
      cases parent : s.1.parent with
      | none => exact rooted_of_parent_eq_none parent
      | some p =>
        obtain ⟨q, found, same⟩ : ∃ q ∈ records, q.id = p := by
          by_contra missing
          exact dangles s.1 s.2 ⟨p, parent, fun q found same => missing ⟨q, found, same⟩⟩
        have above : Above records s.1 q := ⟨found, by rw [parent, same]⟩
        exact above.rooted (ih ⟨q, found⟩ (.single above))
  exact rooted ⟨r, mem⟩

theorem Above.mem_of_transGen (h : TransGen (Above records) r q) : q ∈ records := by
  cases h with
  | single above => exact above.1
  | tail _ above => exact above.1

section
variable {unrooted : List Record}
  (mem_iff : ∀ r, r ∈ unrooted ↔ r ∈ records ∧ ¬Rooted records r)
include mem_iff

theorem transGen_unrooted (h : TransGen (Above records) r q) (out : ¬Rooted records r) :
    TransGen (Above unrooted) r q ∧ ¬Rooted records q := by
  induction h with
  | single above =>
    have out : ¬Rooted records _ := fun rooted => out (above.rooted rooted)
    exact ⟨.single ⟨(mem_iff _).mpr ⟨above.1, out⟩, above.2⟩, out⟩
  | tail _ above ih =>
    have out : ¬Rooted records _ := fun rooted => ih.2 (above.rooted rooted)
    exact ⟨ih.1.tail ⟨(mem_iff _).mpr ⟨above.1, out⟩, above.2⟩, out⟩

theorem exists_loop_unrooted_iff (distinct : Distinct records) :
    (∃ q ∈ unrooted, TransGen (Above unrooted) q q) ↔ ∃ r ∈ records, Loops records r := by
  constructor
  · rintro ⟨q, mem, loop⟩
    have wider : ∀ a b, Above unrooted a b → Above records a b :=
      fun a b above => ⟨((mem_iff b).mp above.1).1, above.2⟩
    exact ⟨q, ((mem_iff q).mp mem).1, q, .refl, TransGen.mono wider q q loop⟩
  · rintro ⟨r, _, q, _, loop⟩
    have out : ¬Rooted records q := fun rooted => rooted.not_transGen distinct loop
    exact ⟨q, (mem_iff q).mpr ⟨Above.mem_of_transGen loop, out⟩,
      (transGen_unrooted mem_iff loop out).1⟩

end

theorem Linked.exists_mem {v w : String} (h : TransGen (Linked records) v w) :
    ∃ r ∈ records, r.id = w := by
  cases h with
  | single link =>
    obtain ⟨r, mem, _, same⟩ := link
    exact ⟨r, mem, same⟩
  | tail _ link =>
    obtain ⟨r, mem, _, same⟩ := link
    exact ⟨r, mem, same⟩

theorem exists_above_of_linked {v w : String} (h : TransGen (Linked records) v w)
    (mem : q ∈ records) (same : q.id = v) :
    ∃ r ∈ records, r.id = w ∧ TransGen (Above records) r q := by
  induction h with
  | single link =>
    obtain ⟨r, found, parent, id⟩ := link
    exact ⟨r, found, id, .single ⟨mem, by rw [parent, same]⟩⟩
  | tail _ link ih =>
    obtain ⟨s, between, id, chain⟩ := ih
    obtain ⟨r, found, parent, id'⟩ := link
    exact ⟨r, found, id', .head ⟨between, by rw [parent, id]⟩ chain⟩

theorem linked_of_above (h : TransGen (Above records) r q) (mem : r ∈ records) :
    TransGen (Linked records) q.id r.id := by
  induction h using TransGen.head_induction_on with
  | single above => exact .single ⟨_, mem, above.2, rfl⟩
  | head above _ ih => exact .tail (ih above.1) ⟨_, mem, above.2, rfl⟩

theorem exists_loop_iff_linked (distinct : Distinct records) :
    (∃ q ∈ records, TransGen (Above records) q q) ↔ ∃ v, TransGen (Linked records) v v := by
  constructor
  · rintro ⟨q, mem, loop⟩
    exact ⟨q.id, linked_of_above loop mem⟩
  · rintro ⟨v, loop⟩
    obtain ⟨q, mem, same⟩ := Linked.exists_mem loop
    obtain ⟨r, found, id, chain⟩ := exists_above_of_linked loop mem same
    obtain rfl := distinct.eq_of_id found mem (id.trans same.symm)
    exact ⟨r, mem, chain⟩

theorem transGen_around {α : Type _} {R S : α → α → Prop} {v : α} (loop : TransGen R v v)
    (keep : ∀ a b, ReflTransGen R v a → R a b → ReflTransGen R b v → S a b) : TransGen S v v := by
  have onward : ∀ w, TransGen R v w → ReflTransGen R w v → TransGen S v w := by
    intro w there
    induction there with
    | single link => exact fun back => .single (keep _ _ .refl link back)
    | tail there link ih =>
      exact fun back => (ih (.head link back)).tail (keep _ _ there.to_reflTransGen link back)
  exact onward v loop .refl

/-- Ids that lie on closed chains of links which run through no other ids. -/
structure Circular (records : List Record) (ids : List String) : Prop where
  filled : ids ≠ []
  nodup : ids.Nodup
  closed : ∀ x ∈ ids, TransGen (fun a b => a ∈ ids ∧ b ∈ ids ∧ Linked records a b) x x

namespace Circular

variable {ids ids' : List String} {p c : String}

theorem exists_loop (h : Circular records ids) : ∃ v, TransGen (Linked records) v v := by
  obtain ⟨v, mem⟩ := List.exists_mem_of_ne_nil _ h.filled
  exact ⟨v, TransGen.mono (fun _ _ link => link.2.2) _ _ (h.closed v mem)⟩

theorem mono {wider : List Record} (h : Circular records ids) (more : ∀ r ∈ records, r ∈ wider) :
    Circular wider ids where
  filled := h.filled
  nodup := h.nodup
  closed x mem := by
    refine TransGen.mono ?_ _ _ (h.closed x mem)
    rintro a b ⟨first, second, r, found, link⟩
    exact ⟨first, second, r, more r found, link⟩

theorem perm (h : Circular records ids) (same : ids.Perm ids') : Circular records ids' where
  filled empty := h.filled (empty ▸ same).eq_nil
  nodup := same.nodup_iff.mp h.nodup
  closed x mem := by
    simp only [← same.mem_iff] at mem ⊢
    exact h.closed x mem

theorem of_link (link : Linked records p c) (back : ReflTransGen (Linked records) c p)
    (nodup : ids.Nodup) (mem_iff : ∀ x, x ∈ ids ↔
      ReflTransGen (Linked records) c x ∧ ReflTransGen (Linked records) x p) :
    Circular records ids where
  filled := List.ne_nil_of_mem ((mem_iff p).mpr ⟨back, .refl⟩)
  nodup := nodup
  closed x mem := by
    obtain ⟨there, back⟩ := (mem_iff x).mp mem
    refine transGen_around ((TransGen.tail' back link).trans_left there) ?_
    intro a b before step after
    have first : a ∈ ids := (mem_iff a).mpr ⟨there.trans before, .head step (after.trans back)⟩
    have second : b ∈ ids := (mem_iff b).mpr ⟨there.trans (before.tail step), after.trans back⟩
    exact ⟨first, second, step⟩

theorem of_isChain (nodup : (c :: ids).Nodup) (chain : (c :: ids).IsChain (Linked records))
    (link : Linked records ((c :: ids).getLast (List.cons_ne_nil _ _)) c) :
    Circular records (c :: ids) where
  filled := List.cons_ne_nil _ _
  nodup := nodup
  closed x mem := by
    let S : String → String → Prop := fun a b => a ∈ c :: ids ∧ b ∈ c :: ids ∧ Linked records a b
    have chain : (c :: ids).IsChain S := List.IsChain.iff_mem.mp chain
    have there : ∀ y ∈ c :: ids, ReflTransGen S c y :=
      chain.induction (ReflTransGen S c) _ (fun _ _ step before => before.tail step) fun _ => .refl
    have back : ∀ y ∈ c :: ids, ReflTransGen S y ((c :: ids).getLast (List.cons_ne_nil _ _)) :=
      chain.backwards_induction (ReflTransGen S · _) _ (fun _ _ step after => .head step after)
        fun _ => .refl
    have closing : S ((c :: ids).getLast (List.cons_ne_nil _ _)) c :=
      ⟨List.getLast_mem _, List.mem_cons_self, link⟩
    exact (TransGen.tail' (back x mem) closing).trans_left (there x mem)

end Circular

end BuildingCode.Clause
