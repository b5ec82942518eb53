import BuildingCode.Machine.Lowering
import Mathlib.Data.List.Induction

/-! The pool of the numbers of a program. Numbers are told apart by their bits, which determine
them, so a number is found again where its index says. -/
namespace BuildingCode.Machine

theorem eq_of_toBits_eq {a b : Float} (h : a.toBits = b.toBits) : a = b := by
  cases a with
  | ofModel a =>
    cases b with
    | ofModel b =>
      cases a
      cases b
      congr

theorem mem_pool_self (known : Array Float) (v : Float) : v ∈ pool known v := by
  unfold pool
  split
  · rename_i found
    obtain ⟨i, hi, same⟩ := Array.any_eq_true.mp found
    rw [← eq_of_toBits_eq (beq_iff_eq.mp same)]
    exact Array.getElem_mem hi
  · exact Array.mem_push_self

theorem mem_pool_of_mem {known : Array Float} {k : Float} (h : k ∈ known) (v : Float) :
    k ∈ pool known v := by
  unfold pool
  split
  · exact h
  · exact Array.mem_push_of_mem v h

theorem mem_foldl_pool_of_mem (vs : List Float) {known : Array Float} {k : Float}
    (h : k ∈ known) : k ∈ vs.foldl pool known := by
  induction vs generalizing known with
  | nil => exact h
  | cons v vs ih => exact ih (mem_pool_of_mem h v)

theorem mem_foldl_pool {vs : List Float} {v : Float} (h : v ∈ vs) (known : Array Float) :
    v ∈ vs.foldl pool known := by
  induction vs generalizing known with
  | nil => contradiction
  | cons w vs ih =>
    rcases List.mem_cons.mp h with rfl | later
    · exact mem_foldl_pool_of_mem vs (mem_pool_self known v)
    · exact ih later _

theorem mem_poolAll {vs : List Float} {v : Float} (h : v ∈ vs) : v ∈ poolAll vs :=
  mem_foldl_pool h #[]

theorem mem_of_mem_foldl_pool {vs : List Float} {known : Array Float} {k : Float}
    (h : k ∈ vs.foldl pool known) : k ∈ known ∨ k ∈ vs := by
  induction vs generalizing known with
  | nil => exact .inl h
  | cons v vs ih =>
    rcases ih h with pooled | later
    · unfold pool at pooled
      split at pooled
      · exact .inl pooled
      · rcases Array.mem_push.mp pooled with old | rfl
        · exact .inl old
        · exact .inr List.mem_cons_self
    · exact .inr (List.mem_cons_of_mem v later)

theorem mem_of_mem_poolAll {vs : List Float} {v : Float} (h : v ∈ poolAll vs) : v ∈ vs :=
  (mem_of_mem_foldl_pool h).resolve_left (Array.not_mem_empty v)

theorem getElem?_poolIndex {constants : Array Float} {v : Float} (h : v ∈ constants) :
    constants[poolIndex constants v]? = some v := by
  unfold poolIndex
  rw [Array.findIdx?_eq_some_of_exists ⟨v, h, by simp⟩, Option.getD_some]
  have inside : constants.findIdx (fun k => k.toBits == v.toBits) < constants.size :=
    Array.findIdx_lt_size_of_exists ⟨v, h, by simp⟩
  have same := Array.findIdx_getElem (w := inside)
  rw [Array.getElem?_eq_getElem inside, eq_of_toBits_eq (beq_iff_eq.mp same)]

theorem poolIndex_push {known : Array Float} {v : Float} (h : v ∈ known) (w : Float) :
    poolIndex (known.push w) v = poolIndex known v := by
  unfold poolIndex
  rw [Array.findIdx?_push, Array.findIdx?_eq_some_of_exists ⟨v, h, by simp⟩]
  rfl

theorem poolIndex_foldl (later : List Float) {known : Array Float} {v : Float} (h : v ∈ known) :
    poolIndex (later.foldl pool known) v = poolIndex known v := by
  induction later generalizing known with
  | nil => rfl
  | cons w later ih =>
    rw [List.foldl_cons, ih (mem_pool_of_mem h w)]
    unfold pool
    split
    · rfl
    · exact poolIndex_push h w

theorem size_foldl_pool_le (vs : List Float) (known : Array Float) :
    (vs.foldl pool known).size ≤ known.size + vs.length := by
  induction vs generalizing known with
  | nil => exact Nat.le_refl _
  | cons v vs ih =>
    have one : (pool known v).size ≤ known.size + 1 := by
      unfold pool
      split
      · exact Nat.le_succ _
      · exact Nat.le_of_eq (Array.size_push v)
    have rest := ih (pool known v)
    rw [List.foldl_cons, List.length_cons]
    omega

theorem pool_of_mem {known : Array Float} {v : Float} (h : v ∈ known) : pool known v = known :=
  if_pos (Array.any_eq_true'.mpr ⟨v, h, beq_self_eq_true v.toBits⟩)

theorem pool_of_not_mem {known : Array Float} {v : Float} (h : v ∉ known) :
    pool known v = known.push v := by
  refine if_neg fun found => ?_
  obtain ⟨k, member, same⟩ := Array.any_eq_true'.mp found
  exact h (eq_of_toBits_eq (beq_iff_eq.mp same) ▸ member)

theorem poolIndex_push_self {known : Array Float} {v : Float} (h : v ∉ known) :
    poolIndex (known.push v) v = known.size := by
  have absent : known.findIdx? (fun k => k.toBits == v.toBits) = none := by
    rw [Array.findIdx?_eq_none_iff]
    intro k member
    exact beq_eq_false_iff_ne.mpr fun same => h (eq_of_toBits_eq same ▸ member)
  unfold poolIndex
  rw [Array.findIdx?_push, absent, if_pos (beq_self_eq_true v.toBits)]
  rfl

theorem nodup_foldl_pool (vs : List Float) {known : Array Float}
    (distinct : (known.toList.map Float.toBits).Nodup) :
    ((vs.foldl pool known).toList.map Float.toBits).Nodup := by
  induction vs generalizing known with
  | nil => exact distinct
  | cons v vs ih =>
    refine ih ?_
    by_cases member : v ∈ known
    · rwa [pool_of_mem member]
    · rw [pool_of_not_mem member, Array.toList_push, List.map_append, List.nodup_append]
      refine ⟨distinct, List.pairwise_singleton _ _, ?_⟩
      intro bits old other new same
      obtain ⟨k, inside, rfl⟩ := List.mem_map.mp old
      rw [List.map_singleton, List.mem_singleton] at new
      subst new
      exact member (Array.mem_toList_iff.mp (eq_of_toBits_eq same ▸ inside))

theorem nodup_poolAll (vs : List Float) : ((poolAll vs).toList.map Float.toBits).Nodup :=
  nodup_foldl_pool vs List.nodup_nil

theorem eraseDups_map_poolIndex (vs : List Float) :
    (vs.map (poolIndex (poolAll vs))).eraseDups = List.range (poolAll vs).size := by
  induction vs using List.reverseRecOn with
  | nil => rfl
  | append_singleton vs v ih =>
    have grown : poolAll (vs ++ [v]) = pool (poolAll vs) v := List.foldl_append
    have kept : vs.map (poolIndex (poolAll (vs ++ [v]))) = vs.map (poolIndex (poolAll vs)) := by
      refine List.map_congr_left fun w member => ?_
      rw [grown]
      exact poolIndex_foldl [v] (mem_poolAll member)
    have indices : ∀ i, i ∈ vs.map (poolIndex (poolAll vs)) ↔ i < (poolAll vs).size := by
      intro i
      rw [← List.mem_eraseDups, ih, List.mem_range]
    rw [List.map_append, kept, List.eraseDups_append, ih, grown]
    by_cases member : v ∈ poolAll vs
    · have inside := (Array.getElem?_eq_some_iff.mp (getElem?_poolIndex member)).1
      have known : [poolIndex (poolAll vs) v].removeAll (vs.map (poolIndex (poolAll vs))) = [] := by
        simp only [List.removeAll, List.filter_eq_nil_iff, List.mem_singleton]
        rintro i rfl
        simpa using (indices _).mpr inside
      rw [pool_of_mem member, List.map_singleton, known, List.eraseDups_nil, List.append_nil]
    · have new : [(poolAll vs).size].removeAll (vs.map (poolIndex (poolAll vs))) =
          [(poolAll vs).size] := by
        simp only [List.removeAll, List.filter_eq_self, List.mem_singleton]
        rintro i rfl
        simpa using fun h => Nat.lt_irrefl _ ((indices (poolAll vs).size).mp h)
      rw [pool_of_not_mem member, List.map_singleton, poolIndex_push_self member, new,
        Array.size_push, List.range_succ]
      rfl

end BuildingCode.Machine
