import BuildingCode.Proofs.Expression.Finiteness
import BuildingCode.Proofs.Machine.Pool
import BuildingCode.Proofs.Machine.Steps

/-! A run over finite numbers holds nothing else. Every instruction keeps the values on the stack finite, so
the test at the end of a run never fails, and what is compared or decided on is always a number. -/
namespace BuildingCode.Machine
open Expression Number

def State.Finite (s : State) : Prop := ∀ v ∈ s.stack, v.isFinite = true

theorem finite_start : State.Finite ⟨0, []⟩ := List.forall_mem_nil _

section
variable {A : Arithmetic} {slots : List Float}

theorem yields_fetched (i : Instr) {found : Option Float}
    (finite : ∀ v, found = some v → v.isFinite = true) : YieldsNumber (fetched i found) := by
  cases found with
  | none => exact .mismatch _
  | some v => exact finite v rfl

theorem yields_pop {stack : List Float} (finite : ∀ v ∈ stack, v.isFinite = true) :
    Yields (fun p => p.1.isFinite = true ∧ ∀ v ∈ p.2, v.isFinite = true) (pop stack) := by
  cases stack with
  | nil => exact .mismatch _
  | cons v rest => exact List.forall_mem_cons.mp finite

theorem yields_popArguments (count : Nat) {stack : List Float}
    (finite : ∀ v ∈ stack, v.isFinite = true) :
    Yields (fun p => (∀ v ∈ p.1, v.isFinite = true) ∧ ∀ v ∈ p.2, v.isFinite = true)
      (popArguments count stack) := by
  refine .ite (fun _ => ⟨fun v member => ?_, fun v member => ?_⟩) fun _ => .mismatch _
  · exact finite v (List.mem_of_mem_take (List.mem_reverse.mp member))
  · exact finite v (List.mem_of_mem_drop member)

theorem finite_push {position : Nat} {v : Float} {rest : List Float} (first : v.isFinite = true)
    (below : ∀ v ∈ rest, v.isFinite = true) : State.Finite ⟨position, v :: rest⟩ :=
  List.forall_mem_cons.mpr ⟨first, below⟩

theorem yields_step (regular : A.Regular) {constants : Array Float}
    (pooled : ∀ v ∈ constants, v.isFinite = true) (given : ∀ v ∈ slots, v.isFinite = true)
    {s : State} (finite : s.Finite) (i : Instr) : Yields State.Finite (step A constants slots s i) := by
  cases i with
  | const index =>
    refine (yields_fetched _ fun v found => ?_).bind fun v first => finite_push first finite
    exact pooled v (Array.mem_of_getElem? found)
  | load index =>
    refine (yields_fetched _ fun v found => ?_).bind fun v first => finite_push first finite
    exact given v (List.mem_of_getElem? found)
  | neg =>
    refine (yields_pop finite).bind fun ⟨v, rest⟩ ⟨first, below⟩ => ?_
    exact finite_push (regular.neg v first) below
  | binary op =>
    refine (yields_pop finite).bind fun ⟨b, rest⟩ ⟨_, below⟩ => ?_
    refine (yields_pop below).bind fun ⟨a, rest⟩ ⟨_, below⟩ => ?_
    exact (op.yields_apply a b).bind fun v first => finite_push first below
  | call f count =>
    refine (yields_popArguments count finite).bind fun ⟨args, rest⟩ ⟨taken, below⟩ => ?_
    exact (f.yields_apply regular taken).bind fun v first => finite_push first below
  | jumpIfFalse target => exact (yields_pop finite).bind fun _ popped => popped.2
  | jump target => exact finite

section
variable {p : Program}

theorem finite_of_steps (regular : A.Regular) (pooled : ∀ v ∈ p.constants, v.isFinite = true)
    (given : ∀ v ∈ slots, v.isFinite = true) {n : Nat} {s : State}
    (steps : Steps A p slots n ⟨0, []⟩ s) : s.Finite := by
  refine steps.invariant (Q := State.Finite) finite_start fun s t i finite _ done => ?_
  have kept := yields_step regular pooled given finite i
  rw [done] at kept
  exact kept

theorem yields_runFrom (regular : A.Regular) (pooled : ∀ v ∈ p.constants, v.isFinite = true)
    (given : ∀ v ∈ slots, v.isFinite = true) (limit budget : Nat) {s : State} (finite : s.Finite) :
    Yields (fun stack => ∀ v ∈ stack, v.isFinite = true) (p.runFrom A slots limit budget s) := by
  induction budget generalizing s with
  | zero => exact .ite (fun _ => fun h => Failure.noConfusion h) fun _ => finite
  | succ budget ih =>
    rw [Program.runFrom]
    cases p.code[s.position]? with
    | none => exact finite
    | some i => exact (yields_step regular pooled given finite i).bind fun t kept => ih kept

theorem yields_single {stack : List Float} (finite : ∀ v ∈ stack, v.isFinite = true) :
    YieldsNumber (single stack) := by
  match stack with
  | [] | _ :: _ :: _ => exact .mismatch _
  | [v] =>
    have number := finite v (List.mem_singleton_self v)
    rw [single, Expression.finite, if_pos number]
    exact number

theorem Program.yields_run (regular : A.Regular) (pooled : ∀ v ∈ p.constants, v.isFinite = true)
    (given : ∀ v ∈ slots, v.isFinite = true) (limit : Nat) : YieldsNumber (p.run A slots limit) := by
  rw [run]
  cases p.misfit? slots with
  | some m => exact .mismatch m
  | none => exact (yields_runFrom regular pooled given limit limit finite_start).bind fun _ => yields_single

/-- Over finite slots and with finite numbers in its pool a program has nothing but finite numbers on the
stack at any time. What the next instruction takes from there, a comparison or a conditional among them, is
therefore a number, and the test at the end of a run never fails. -/
theorem Program.run_finite (regular : A.Regular) (pooled : ∀ v ∈ p.constants, v.isFinite = true)
    (given : ∀ v ∈ slots, v.isFinite = true) :
    (∀ n s, Steps A p slots n ⟨0, []⟩ s → (∀ v ∈ s.stack, v.isFinite = true) ∧
      ∀ i, p.code[s.position]? = some i → ∀ v ∈ s.stack.take i.pops, v.isNaN = false) ∧
    ∀ limit, p.run A slots limit ≠ .error (.nonFinite .result) := by
  constructor
  · intro n s steps
    have finite := finite_of_steps regular pooled given steps
    exact ⟨finite, fun i _ v taken => isNaN_of_isFinite (finite v (List.mem_of_mem_take taken))⟩
  · intro limit failed
    have yields := yields_run regular pooled given limit
    rw [failed] at yields
    exact yields rfl

end
end

end BuildingCode.Machine

namespace BuildingCode.Expression

def within (f : Float → Float) (x : Float) : Float := if (f x).isFinite then f x else 0.0

theorem isFinite_within (f : Float → Float) (x : Float) : (within f x).isFinite = true := by
  unfold within
  split
  · assumption
  · rfl

def floorWithin (x : Float) : Float :=
  if (Number.floor x).isFinite ∧ (Number.floor x + 1.0).isFinite then Number.floor x else 0.0

theorem isFinite_floorWithin (x : Float) :
    (floorWithin x).isFinite = true ∧ (floorWithin x + 1.0).isFinite = true := by
  unfold floorWithin
  split
  · assumption
  · exact ⟨rfl, by decide⟩

/-- The standard functions, with zero where one whose result is not tested gives no finite number. -/
def Arithmetic.guarded : Arithmetic :=
  { Arithmetic.standard with
    neg := within Float.neg
    abs := within Float.abs
    sqrt := within Float.sqrt
    cbrt := within Number.cubeRoot
    ln := within Float.log
    log10 := within Float.log10
    log2 := within Float.log2
    asin := within Float.asin
    acos := within Float.acos
    atan := within Float.atan
    atan2 := fun y => within (Float.atan2 y)
    tanh := within Float.tanh
    floor := floorWithin
    ceil := within Number.ceiling
    trunc := within Number.truncate
    signum := within signOf }

theorem Arithmetic.Regular.guarded : Arithmetic.guarded.Regular where
  neg x _ := isFinite_within _ x
  abs x _ := isFinite_within _ x
  cbrt x _ := isFinite_within _ x
  atan x _ := isFinite_within _ x
  atan2 y x _ _ := isFinite_within _ x
  tanh x _ := isFinite_within _ x
  floor x _ := (isFinite_floorWithin x).1
  ceil x _ := isFinite_within _ x
  trunc x _ := isFinite_within _ x
  signum x _ := isFinite_within _ x
  roundHalfUp x _ := by
    dsimp only [Expression.roundHalfUp]
    split
    · exact (isFinite_floorWithin x).2
    · exact (isFinite_floorWithin x).1
  sqrt x _ _ := isFinite_within _ x
  ln x _ _ := isFinite_within _ x
  log10 x _ _ := isFinite_within _ x
  log2 x _ _ := isFinite_within _ x
  asin x _ _ := isFinite_within _ x
  acos x _ _ := isFinite_within _ x

end BuildingCode.Expression

namespace BuildingCode.Machine
open Expression

theorem Program.finite_of_ofText {scope : Scope} {limits : Limits} {text : String} {p : Program}
    (h : ofText scope limits text = .ok p) : ∀ v ∈ p.constants, v.isFinite = true := by
  obtain ⟨e, read, lowered⟩ := Outcome.bind_eq_ok.mp h
  cases lowered
  exact fun v pooled => Expression.finite_of_ofText read v (mem_of_mem_poolAll pooled)

theorem Program.run_finite_guarded : ∃ (scope : Scope) (p : Program), scope.names = ["a", "b"] ∧
    ofText scope {} "sqrt(a) > -b ? max(a, b) / round(b) : ln(a)" = .ok p ∧
      Arithmetic.guarded.Regular ∧ (∀ v ∈ p.constants, v.isFinite = true) ∧
      (∀ v ∈ [(9.0 : Float), 2.0], v.isFinite = true) ∧
      p.run .guarded [9.0, 2.0] 20 = .ok 4.5 ∧ p.run .standard [9.0, 2.0] 20 = .ok 4.5 ∧
      ∀ limit, p.run .guarded [9.0, 2.0] limit ≠ .error (.nonFinite .result) := by
  let scope : Scope := ⟨["a", "b"], by decide, by decide⟩
  have ran : (ofText scope {} "sqrt(a) > -b ? max(a, b) / round(b) : ln(a)").toOption.map
      (fun p => (p.run .guarded [9.0, 2.0] 20, p.run .standard [9.0, 2.0] 20)) =
      some (.ok 4.5, .ok 4.5) := by
    decide +kernel
  have given : ∀ v ∈ [(9.0 : Float), 2.0], v.isFinite = true := by decide
  cases compiled : ofText scope {} "sqrt(a) > -b ? max(a, b) / round(b) : ln(a)" with
  | error r =>
    rw [compiled] at ran
    cases ran
  | ok p =>
    rw [compiled] at ran
    obtain ⟨guarded, standard⟩ := Prod.mk.inj (Option.some.inj ran)
    have pooled := finite_of_ofText compiled
    exact ⟨scope, p, rfl, compiled, .guarded, pooled, given, guarded, standard,
      (run_finite .guarded pooled given).2⟩

end BuildingCode.Machine
