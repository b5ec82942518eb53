import BuildingCode.Proofs.Service.Sessions

/-! A batch finds all its formulas before it evaluates the first one. Evaluating asks nobody and leaves
the service alone, so the batch is still the sequence of its requests. -/
namespace BuildingCode.Service
open Formula Store

theorem computeBatch_cons (s : Service) (r : Request) (rs : List Request) :
    s.computeBatch (r :: rs) = ((s.compute r).1 :: ((s.compute r).2.computeBatch rs).1,
      ((s.compute r).2.computeBatch rs).2) := rfl

theorem run_compute (s : Service) (rs : List Request) :
    s.run (rs.map .compute) = ((s.computeBatch rs).1.map .computed, (s.computeBatch rs).2) := by
  induction rs generalizing s with
  | nil => rfl
  | cons r rs ih =>
    rw [computeBatch_cons, List.map_cons, run]
    simp only [step, ih]
    rfl

theorem after_compute (s : Service) (rs : List Request) :
    s.after (rs.map .compute) = (s.computeBatch rs).2 := by
  rw [after, run_compute]

theorem length_computeBatch (s : Service) (rs : List Request) :
    (s.computeBatch rs).1.length = rs.length := by
  induction rs generalizing s with
  | nil => rfl
  | cons r rs ih => rw [computeBatch_cons, List.length_cons, ih, List.length_cons]

theorem getElem?_computeBatch (s : Service) (rs : List Request) (i : Nat) :
    (s.computeBatch rs).1[i]? =
      rs[i]?.map fun r => ((s.after ((rs.take i).map .compute)).compute r).1 := by
  induction rs generalizing s i with
  | nil => rfl
  | cons r rs ih =>
    rw [computeBatch_cons]
    cases i with
    | zero => rfl
    | succ i =>
      rw [List.getElem?_cons_succ, List.getElem?_cons_succ, ih]
      rfl

/-- Every request of a batch is answered in its place as if the requests before it had been computed
one after another, and the batch leaves what they all leave, the cache and the count of loads with
it. -/
theorem computeBatch_in_order (s : Service) (rs : List Request) :
    (s.computeBatch rs).1.length = rs.length ∧
      (∀ i, (s.computeBatch rs).1[i]? =
        rs[i]?.map fun r => ((s.after ((rs.take i).map .compute)).compute r).1) ∧
      (s.computeBatch rs).2 = s.after (rs.map .compute) := by
  apply And.intro (length_computeBatch s rs)
  apply And.intro (getElem?_computeBatch s rs)
  exact (after_compute s rs).symm

end BuildingCode.Service
