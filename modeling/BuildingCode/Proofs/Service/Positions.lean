import BuildingCode.Proofs.Service.Batch
import BuildingCode.Proofs.Text.Space

/-! Batches in documents. Requests without a block id are left out when the others are computed, and answered
when those have been. Still every request has its answer in its own place, and it is the answer that it would
have alone, after the requests before it. -/
namespace BuildingCode.Service
open Formula Json

variable {s : Service} {digits : UInt32} {r : Request} {rs : List Request} {body : String} {i : Nat}

theorem Request.isRunnable_eq_true_iff : r.isRunnable = true ↔ Text.trim r.blockId ≠ "" := by
  rw [isRunnable, Ne, ← Text.isBlank_iff_trim]
  simp

def respondAll (s : Service) (digits : UInt32) (rs : List Request) : List Response × Service :=
  let (outcomes, s) := s.computeBatch (rs.filter Request.isRunnable)
  (pairOutcomes digits rs outcomes, s)

theorem answerBatch_of_read (read : (parse body).bind (asListOf Request.decode) = some rs) :
    s.answerBatch body digits = s.respondAll digits rs := by
  rw [answerBatch, read]
  rfl

theorem respondAll_cons (s : Service) (digits : UInt32) (r : Request) (rs : List Request) :
    s.respondAll digits (r :: rs) = ((s.respond digits r).1 :: ((s.respond digits r).2.respondAll digits rs).1,
      ((s.respond digits r).2.respondAll digits rs).2) := by
  unfold respondAll respond
  cases runs : r.isRunnable with
  | true => simp [runs, computeBatch_cons, pairOutcomes]
  | false => simp [runs, pairOutcomes]

theorem length_respondAll : (s.respondAll digits rs).1.length = rs.length := by
  induction rs generalizing s with
  | nil => rfl
  | cons r rs ih => rw [respondAll_cons, List.length_cons, ih, List.length_cons]

def computed (rs : List Request) : List Event :=
  (rs.filter fun r : Request => Text.trim r.blockId ≠ "").map .compute

theorem computed_eq (rs : List Request) : computed rs = (rs.filter Request.isRunnable).map .compute := by
  refine congrArg (List.map Event.compute) (List.filter_congr fun r _ => ?_)
  rw [Bool.eq_iff_iff, Request.isRunnable_eq_true_iff, decide_eq_true_iff]

theorem after_computed_cons (s : Service) (digits : UInt32) (r : Request) (rs : List Request) :
    s.after (computed (r :: rs)) = (s.respond digits r).2.after (computed rs) := by
  rw [computed_eq, computed_eq, respond]
  cases runs : r.isRunnable with
  | true =>
    rw [List.filter_cons_of_pos runs, List.map_cons, after_cons]
    rfl
  | false =>
    rw [List.filter_cons_of_neg (by simp [runs])]
    rfl

theorem getElem?_respondAll : (s.respondAll digits rs).1[i]? =
    rs[i]?.map fun r => ((s.after (computed (rs.take i))).respond digits r).1 := by
  induction rs generalizing s i with
  | nil => rfl
  | cons r rs ih =>
    rw [respondAll_cons]
    cases i with
    | zero => rfl
    | succ i =>
      rw [List.getElem?_cons_succ, List.getElem?_cons_succ, ih, List.take_succ_cons,
        after_computed_cons s digits]

theorem Response.ofOutcome_ne_blockIdRequired (o : Except ComputeFault Result) :
    ofOutcome digits o ≠ .failure "block_id_required" [] := by
  cases o with
  | ok result =>
    intro same
    cases same
  | error fault => cases fault <;> simp [ofOutcome, ComputeFault.code]

theorem respond_eq (s : Service) (digits : UInt32) (r : Request) : (s.respond digits r).1 =
    if Text.trim r.blockId = "" then .failure "block_id_required" []
    else .ofOutcome digits (s.compute r).1 := by
  rw [respond]
  split
  · next runs => exact (if_neg (Request.isRunnable_eq_true_iff.mp runs)).symm
  · next idle => exact (if_pos (not_not.mp (Request.isRunnable_eq_true_iff.not.mp idle))).symm

theorem respond_eq_blockIdRequired_iff :
    (s.respond digits r).1 = .failure "block_id_required" [] ↔ Text.trim r.blockId = "" := by
  rw [respond_eq]
  split
  · next blank => exact iff_of_true rfl blank
  · next named => exact iff_of_false (Response.ofOutcome_ne_blockIdRequired _) named

/-- A body that is a list of requests has one response for each: without a block id, that it is required, and no
other request is told so; else what computing the request gives after the others before it that have one.
Any other body has one response, that it is invalid, and leaves the service as it was. -/
theorem answerBatch_in_place (s : Service) (body : String) (digits : UInt32) :
    (∀ rs, (parse body).bind (asListOf Request.decode) = some rs →
      (s.answerBatch body digits).1.length = rs.length ∧
      (∀ (i : Nat) (r : Request), rs[i]? = some r →
        (s.answerBatch body digits).1[i]? = some
          (if Text.trim r.blockId = "" then .failure "block_id_required" []
            else .ofOutcome digits ((s.after (computed (rs.take i))).compute r).1)) ∧
      (∀ (i : Nat) (r : Request), rs[i]? = some r →
        ((s.answerBatch body digits).1[i]? = some (.failure "block_id_required" []) ↔
          Text.trim r.blockId = "")) ∧
      (s.answerBatch body digits).2 = s.after (computed rs)) ∧
    ((parse body).bind (asListOf Request.decode) = none →
      ∃ messages, s.answerBatch body digits = ([.failure "invalid_json" messages], s)) := by
  constructor
  · intro rs read
    rw [answerBatch_of_read read]
    refine ⟨length_respondAll, fun i r here => ?_, fun i r here => ?_, ?_⟩
    · rw [getElem?_respondAll, here, Option.map_some, respond_eq]
    · rw [getElem?_respondAll, here, Option.map_some, Option.some_inj, respond_eq_blockIdRequired_iff]
    · rw [computed_eq, after_compute]
      rfl
  · intro unread
    rw [answerBatch, unread]
    exact ⟨_, rfl⟩

theorem answerBatch_in_place_blank :
    let s : Service := ⟨[], none, { store := { limits := {} } }⟩
    let body := "[[\"a\"], [\" \"], [\"b\"]]"
    (parse body).bind (asListOf Request.decode) =
        some [⟨"a", [], none⟩, ⟨" ", [], none⟩, ⟨"b", [], none⟩] ∧
      (s.answerBatch body 6).1.length = 3 ∧
      (s.answerBatch body 6).1[1]? = some (.failure "block_id_required" []) ∧
      (s.answerBatch body 6).1[2]? = some (.failure "unknown_formula" ["Unknown formula 'b'"]) ∧
      ∃ messages, s.answerBatch "[\"a\"" 6 = ([.failure "invalid_json" messages], s) := by
  intro s body
  have read : (parse body).bind (asListOf Request.decode) =
      some [⟨"a", [], none⟩, ⟨" ", [], none⟩, ⟨"b", [], none⟩] := by decide +kernel
  have unread : (parse "[\"a\"").bind (asListOf Request.decode) = none := by decide +kernel
  obtain ⟨length, places, _, _⟩ := (answerBatch_in_place s body 6).1 _ read
  have second := places 1 ⟨" ", [], none⟩ rfl
  have third := places 2 ⟨"b", [], none⟩ rfl
  rw [if_pos (by decide)] at second
  rw [if_neg (by decide)] at third
  exact ⟨read, length, second, third.trans (by decide +kernel), (answerBatch_in_place s _ 6).2 unread⟩

end BuildingCode.Service
