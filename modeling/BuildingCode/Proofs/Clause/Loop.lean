import BuildingCode.Clause.Loop
import BuildingCode.Proofs.Clause.Chain
import Mathlib.Data.List.Basic

/-! The search for a loop among parent links finds one exactly if there is one. Which numbers the
walk gives to ids does not matter for that: no numbers go down all around a loop. -/
namespace BuildingCode.Clause
open Relation

theorem getD_grouped (pairs : List (String × α)) (key : String) :
    (grouped pairs).getD key [] = (pairs.filter fun pair => pair.1 = key).map (·.2) := by
  induction pairs with
  | nil => exact Std.TreeMap.getD_emptyc
  | cons pair pairs ih =>
    obtain ⟨k, value⟩ := pair
    have step : grouped ((k, value) :: pairs) =
        (grouped pairs).insert k (value :: (grouped pairs).getD k []) := rfl
    rw [step, Std.TreeMap.getD_insert]
    by_cases same : k = key
    · subst same
      simp [ih]
    · have differ : compare k key ≠ .eq := fun h => same (Std.LawfulEqOrd.eq_of_compare h)
      simp [differ, same, ih]

theorem mem_erase {ids : Ids} {v x : String} : x ∈ ids.erase v ↔ x ≠ v ∧ x ∈ ids := by
  rw [Std.TreeSet.mem_erase, ne_eq, Std.LawfulEqOrd.compare_eq_iff_eq, ne_comm]

section
variable {next : String → List String}

theorem reach_closed (remaining : Ids) (pending : List String) :
    (∀ v ∈ pending, v ∈ remaining → v ∈ reach next remaining pending) ∧
      ∀ a ∈ reach next remaining pending, ∀ b ∈ next a, b ∈ remaining →
        b ∈ reach next remaining pending := by
  induction remaining, pending using reach.induct next with
  | case1 remaining => simp [reach]
  | case2 remaining v pending found ih =>
    have kept : ∀ b ∈ remaining, b = v ∨ b ∈ remaining.erase v := by
      intro b mem
      by_cases same : b = v
      · exact .inl same
      · exact .inr (mem_erase.mpr ⟨same, mem⟩)
    rw [reach, dif_pos found]
    constructor
    · intro w waits mem
      rcases kept w mem with rfl | mem
      · exact List.mem_cons_self
      · rcases List.mem_cons.mp waits with rfl | waits
        · exact List.mem_cons_self
        · exact List.mem_cons_of_mem _ (ih.1 w (List.mem_append_right _ waits) mem)
    · intro a reached b leads mem
      rcases kept b mem with rfl | mem
      · exact List.mem_cons_self
      · rcases List.mem_cons.mp reached with rfl | reached
        · exact List.mem_cons_of_mem _ (ih.1 b (List.mem_append_left _ leads) mem)
        · exact List.mem_cons_of_mem _ (ih.2 a reached b leads mem)
  | case3 remaining v pending missing ih =>
    rw [reach, dif_neg missing]
    refine ⟨?_, ih.2⟩
    intro w waits mem
    rcases List.mem_cons.mp waits with rfl | waits
    · exact absurd (Std.TreeSet.mem_iff_contains.mp mem) missing
    · exact ih.1 w waits mem

theorem exists_of_mem_reach (remaining : Ids) (pending : List String) :
    ∀ x ∈ reach next remaining pending,
      ∃ v ∈ pending, ReflTransGen (fun a b => b ∈ next a) v x := by
  induction remaining, pending using reach.induct next with
  | case1 remaining => simp [reach]
  | case2 remaining v pending found ih =>
    intro x reached
    rw [reach, dif_pos found] at reached
    rcases List.mem_cons.mp reached with rfl | reached
    · exact ⟨x, List.mem_cons_self, .refl⟩
    · obtain ⟨w, waits, chain⟩ := ih x reached
      rcases List.mem_append.mp waits with leads | waits
      · exact ⟨v, List.mem_cons_self, .head leads chain⟩
      · exact ⟨w, List.mem_cons_of_mem _ waits, chain⟩
  | case3 remaining v pending missing ih =>
    intro x reached
    rw [reach, dif_neg missing] at reached
    obtain ⟨w, waits, chain⟩ := ih x reached
    exact ⟨w, List.mem_cons_of_mem _ waits, chain⟩

theorem mem_of_mem_reach (remaining : Ids) (pending : List String) :
    ∀ x ∈ reach next remaining pending, x ∈ remaining := by
  induction remaining, pending using reach.induct next with
  | case1 remaining => simp [reach]
  | case2 remaining v pending found ih =>
    intro x reached
    rw [reach, dif_pos found] at reached
    rcases List.mem_cons.mp reached with rfl | reached
    · exact Std.TreeSet.mem_iff_contains.mpr found
    · exact (mem_erase.mp (ih x reached)).2
  | case3 remaining v pending missing ih =>
    rw [reach, dif_neg missing]
    exact ih

theorem nodup_reach (remaining : Ids) (pending : List String) :
    (reach next remaining pending).Nodup := by
  induction remaining, pending using reach.induct next with
  | case1 remaining => simp [reach]
  | case2 remaining v pending found ih =>
    rw [reach, dif_pos found, List.nodup_cons]
    exact ⟨fun again => (mem_erase.mp (mem_of_mem_reach _ _ v again)).1 rfl, ih⟩
  | case3 remaining v pending missing ih =>
    rw [reach, dif_neg missing]
    exact ih

theorem mem_reach_iff {ids : Ids} {v x : String} (start : v ∈ ids)
    (inside : ∀ a b, b ∈ next a → b ∈ ids) :
    x ∈ reach next ids [v] ↔ ReflTransGen (fun a b => b ∈ next a) v x := by
  constructor
  · intro reached
    obtain ⟨w, waits, chain⟩ := exists_of_mem_reach ids [v] x reached
    rwa [List.mem_singleton.mp waits] at chain
  · intro chain
    have settled : _ ∧ ∀ a ∈ reach next ids [v], ∀ b ∈ next a, b ∈ ids → b ∈ reach next ids [v] :=
      reach_closed ids [v]
    obtain ⟨begins, closed⟩ := settled
    induction chain with
    | refl => exact begins v List.mem_cons_self start
    | tail _ leads ih => exact closed _ ih _ leads (inside _ _ leads)

end

/-- Numbers cannot go down with every link of a loop. -/
theorem exists_rising_of_loop {R : String → String → Prop} (number : String → Nat) {v : String}
    (loop : TransGen R v v) :
    ∃ a b, R a b ∧ ReflTransGen R b a ∧ number a ≤ number b := by
  by_contra falling
  -- Along the loop from `v`, as long as it leads back there, the number has gone down.
  have down : ∀ w, TransGen R v w → ReflTransGen R w v → number w < number v := by
    intro w there
    induction there with
    | single link =>
      intro back
      by_contra rising
      exact falling ⟨_, _, link, back, Nat.le_of_not_lt rising⟩
    | tail there link ih =>
      intro back
      have before := ih (.head link back)
      have here := Nat.lt_of_not_le fun rising =>
        falling ⟨_, _, link, back.trans there.to_reflTransGen, rising⟩
      exact Nat.lt_trans here before
  exact Nat.lt_irrefl _ (down v loop .refl)

section
variable {records : List Record}

theorem mem_links {l : Link} : l ∈ links records ↔ Linked records l.parent l.child := by
  obtain ⟨p, c⟩ := l
  simp [links, Linked, List.mem_filterMap]

def leadsDown (records : List Record) (v : String) : List String :=
  (grouped ((links records).map fun l => (l.parent, l.child))).getD v []

def leadsUp (records : List Record) (v : String) : List String :=
  (grouped ((links records).map fun l => (l.child, l.parent))).getD v []

theorem mem_grouped_links (key value : Link → String) {v w : String} :
    w ∈ (grouped ((links records).map fun l => (key l, value l))).getD v [] ↔
      ∃ l ∈ links records, key l = v ∧ value l = w := by
  rw [getD_grouped]
  simp [List.mem_filter, and_assoc]

theorem mem_leadsDown {v c : String} : c ∈ leadsDown records v ↔ Linked records v c := by
  rw [leadsDown, mem_grouped_links, ← mem_links (l := ⟨v, c⟩)]
  constructor
  · rintro ⟨l, found, rfl, rfl⟩
    exact found
  · exact fun found => ⟨_, found, rfl, rfl⟩

theorem mem_leadsUp {v p : String} : p ∈ leadsUp records v ↔ Linked records p v := by
  rw [leadsUp, mem_grouped_links, ← mem_links (l := ⟨p, v⟩)]
  constructor
  · rintro ⟨l, found, rfl, rfl⟩
    exact found
  · exact fun found => ⟨_, found, rfl, rfl⟩

theorem Linked.mentioned {v w : String} (h : Linked records v w) :
    w ∈ Std.TreeSet.ofList (mentioned records) := by
  obtain ⟨r, mem, _, rfl⟩ := h
  rw [Std.TreeSet.mem_ofList, List.contains_iff_mem]
  exact List.mem_flatMap.mpr ⟨r, mem, List.mem_cons_self⟩

theorem mem_reach_leadsDown_iff {l : Link} (mem : l ∈ links records) {x : String} :
    x ∈ reach (leadsDown records) (.ofList (mentioned records)) [l.child] ↔
      ReflTransGen (Linked records) l.child x := by
  rw [mem_reach_iff (mem_links.mp mem).mentioned fun a b child => (mem_leadsDown.mp child).mentioned]
  simp only [mem_leadsDown]

theorem isSome_loopThrough?_iff (up : String → List String) {l : Link} (mem : l ∈ links records) :
    (loopThrough? (.ofList (mentioned records)) (leadsDown records) up l).isSome ↔
      ReflTransGen (Linked records) l.child l.parent := by
  rw [← mem_reach_leadsDown_iff mem, loopThrough?]
  simp only [List.contains_iff_mem]
  split <;> simp_all

theorem circular_of_loopThrough? {l : Link} {ids : List String} (mem : l ∈ links records)
    (h : loopThrough? (.ofList (mentioned records)) (leadsDown records) (leadsUp records) l =
      some ids) : Circular records ids := by
  unfold loopThrough? at h
  extract_lets below at h
  split at h
  · next closes =>
    cases h
    have inside : ∀ x, x ∈ Std.TreeSet.ofList below ↔ ReflTransGen (Linked records) l.child x := by
      intro x
      rw [Std.TreeSet.mem_ofList, List.contains_iff_mem]
      exact mem_reach_leadsDown_iff mem
    have back : ReflTransGen (Linked records) l.child l.parent :=
      (mem_reach_leadsDown_iff mem).mp (List.contains_iff_mem.mp closes)
    refine .of_link (mem_links.mp mem) back (nodup_reach _ _) fun x => ⟨?_, ?_⟩
    · intro found
      obtain ⟨w, waits, chain⟩ := exists_of_mem_reach _ _ x found
      obtain rfl := List.mem_singleton.mp waits
      simp only [mem_leadsUp] at chain
      exact ⟨(inside x).mp (mem_of_mem_reach _ _ x found), chain.swap⟩
    · rintro ⟨there, onward⟩
      obtain ⟨begins, closed⟩ := @reach_closed (leadsUp records) (.ofList below) [l.parent]
      induction onward using ReflTransGen.head_induction_on with
      | refl => exact begins _ List.mem_cons_self ((inside _).mpr back)
      | head step _ ih =>
        exact closed _ (ih (there.tail step)) _ (mem_leadsUp.mpr step) ((inside _).mpr there)
  · cases h

theorem isSome_firstLoop?_iff : (firstLoop? records).isSome ↔
    ∃ v, TransGen (Linked records) v v := by
  unfold firstLoop?
  extract_lets ids ls below down left numbers number
  have closes : ∀ up l, l ∈ ls → ((loopThrough? ids down up l).isSome ↔
      ReflTransGen (Linked records) l.child l.parent) :=
    fun up l mem => isSome_loopThrough?_iff up mem
  have rises : ∀ v, TransGen (Linked records) v v →
      ∃ l ∈ ls.filter fun l => number l.parent ≤ number l.child,
        ReflTransGen (Linked records) l.child l.parent := by
    intro v loop
    obtain ⟨a, b, link, back, rising⟩ := exists_rising_of_loop number loop
    have mem : (⟨a, b⟩ : Link) ∈ ls := mem_links.mpr link
    exact ⟨⟨a, b⟩, List.mem_filter.mpr ⟨mem, by simpa using rising⟩, back⟩
  split
  · next none =>
    constructor
    · intro found
      cases found
    · rintro ⟨v, loop⟩
      obtain ⟨l, mem, _⟩ := rises v loop
      rw [none] at mem
      cases mem
  · next =>
    rw [Option.isSome_map, List.findSome?_isSome_iff]
    simp only [List.mem_mergeSort]
    constructor
    · rintro ⟨l, mem, closed⟩
      have mem : l ∈ ls := (List.mem_filter.mp mem).1
      have back := (closes _ l mem).mp closed
      exact ⟨l.parent, .head' (mem_links.mp mem) back⟩
    · rintro ⟨v, loop⟩
      obtain ⟨l, mem, back⟩ := rises v loop
      exact ⟨l, mem, (closes _ l (List.mem_filter.mp mem).1).mpr back⟩

theorem circular_of_firstLoop? {ids : List String} (h : firstLoop? records = some ids) :
    Circular records ids := by
  unfold firstLoop? at h
  extract_lets _ ls at h
  split at h
  · cases h
  · obtain ⟨found, first, rfl⟩ := Option.map_eq_some_iff.mp h
    obtain ⟨l, mem, closes⟩ := List.exists_of_findSome?_eq_some first
    have mem : l ∈ ls := (List.mem_filter.mp (List.mem_mergeSort.mp mem)).1
    exact (circular_of_loopThrough? mem closes).perm (List.mergeSort_perm _ _).symm

end
end BuildingCode.Clause
