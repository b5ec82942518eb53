import BuildingCode.Expression.Failure
import BuildingCode.Number.Exact
import BuildingCode.Number.Hypotenuse
import BuildingCode.Number.Whole

/-! The operations of expressions, with their domains checked. The float functions below them are
a parameter: what an expression means does not depend on how they are computed. -/
namespace BuildingCode.Expression

structure Arithmetic where
  neg : Float → Float
  add : Float → Float → Float
  sub : Float → Float → Float
  mul : Float → Float → Float
  div : Float → Float → Float
  rem : Float → Float → Float
  pow : Float → Float → Float
  abs : Float → Float
  sqrt : Float → Float
  cbrt : Float → Float
  exp : Float → Float
  ln : Float → Float
  log10 : Float → Float
  log2 : Float → Float
  sin : Float → Float
  cos : Float → Float
  tan : Float → Float
  asin : Float → Float
  acos : Float → Float
  atan : Float → Float
  atan2 : Float → Float → Float
  sinh : Float → Float
  cosh : Float → Float
  tanh : Float → Float
  floor : Float → Float
  ceil : Float → Float
  trunc : Float → Float
  signum : Float → Float
  hypot : Float → Float → Float

def signOf (x : Float) : Float :=
  if x.isNaN then x else if Number.isNegative x then -1.0 else 1.0

def Arithmetic.standard : Arithmetic where
  neg := Float.neg
  add := Float.add
  sub := Float.sub
  mul := Float.mul
  div := Float.div
  rem := Number.remainder
  pow := Float.pow
  abs := Float.abs
  sqrt := Float.sqrt
  cbrt := Number.cubeRoot
  exp := Float.exp
  ln := Float.log
  log10 := Float.log10
  log2 := Float.log2
  sin := Float.sin
  cos := Float.cos
  tan := Float.tan
  asin := Float.asin
  acos := Float.acos
  atan := Float.atan
  atan2 := Float.atan2
  sinh := Float.sinh
  cosh := Float.cosh
  tanh := Float.tanh
  floor := Number.floor
  ceil := Number.ceiling
  trunc := Number.truncate
  signum := signOf
  hypot := Number.hypotenuse

def finite (operation : Operation) (x : Float) : Except Failure Float :=
  if x.isFinite then .ok x else .error (.nonFinite operation)

/-- Also a value that is no number, which says that the argument was outside the domain. -/
def defined (f : MathFunction) (argument x : Float) : Except Failure Float :=
  if x.isNaN then .error (.undefined f argument) else finite (.function f) x

def truth (b : Bool) : Float := if b then 1.0 else 0.0

def raise (A : Arithmetic) (a b : Float) : Except Failure Float :=
  if a == 0.0 && b < 0.0 then .error .divisionByZero else defined .pow a (A.pow a b)

def BinaryOp.apply (A : Arithmetic) (op : BinaryOp) (a b : Float) : Except Failure Float :=
  match op with
  | .add => finite .add (A.add a b)
  | .sub => finite .sub (A.sub a b)
  | .mul => finite .mul (A.mul a b)
  | .div => if b == 0.0 then .error .divisionByZero else finite .div (A.div a b)
  | .rem => if b == 0.0 then .error .divisionByZero else finite .rem (A.rem a b)
  | .pow => raise A a b
  | .lt => .ok (truth (a < b))
  | .le => .ok (truth (a ≤ b))
  | .gt => .ok (truth (b < a))
  | .ge => .ok (truth (b ≤ a))
  | .eq => .ok (truth (a == b))
  | .ne => .ok (truth (a != b))

def roundHalfUp (A : Arithmetic) (x : Float) : Float :=
  let low := A.floor x
  if 0.5 ≤ A.sub x low then A.add low 1.0 else low

/-- The smaller of two numbers; what is no number loses against any. -/
def smaller (a b : Float) : Float :=
  if a.isNaN then b else if b.isNaN then a else if b < a then b else a

def larger (a b : Float) : Float :=
  if a.isNaN then b else if b.isNaN then a else if a < b then b else a

def second (f : MathFunction) : List Float → Except Failure Float
  | [] => .error (.mismatch (.secondMissing f))
  | y :: _ => .ok y

def MathFunction.applyTo (A : Arithmetic) (f : MathFunction) (x : Float) (more : List Float) :
    Except Failure Float :=
  match f with
  | .abs => .ok (A.abs x)
  | .sqrt => if x < 0.0 then .error (.undefined f x) else .ok (A.sqrt x)
  | .cbrt => .ok (A.cbrt x)
  | .pow => do raise A x (← second f more)
  | .exp => finite (.function f) (A.exp x)
  | .ln => if x ≤ 0.0 then .error (.undefined f x) else .ok (A.ln x)
  | .log10 => if x ≤ 0.0 then .error (.undefined f x) else .ok (A.log10 x)
  | .log2 => if x ≤ 0.0 then .error (.undefined f x) else .ok (A.log2 x)
  | .sin => defined f x (A.sin x)
  | .cos => defined f x (A.cos x)
  | .tan => defined f x (A.tan x)
  | .asin => if -1.0 ≤ x && x ≤ 1.0 then .ok (A.asin x) else .error (.undefined f x)
  | .acos => if -1.0 ≤ x && x ≤ 1.0 then .ok (A.acos x) else .error (.undefined f x)
  | .atan => .ok (A.atan x)
  | .atan2 => do return A.atan2 x (← second f more)
  | .sinh => finite (.function f) (A.sinh x)
  | .cosh => finite (.function f) (A.cosh x)
  | .tanh => .ok (A.tanh x)
  | .floor => .ok (A.floor x)
  | .ceil => .ok (A.ceil x)
  | .round => .ok (roundHalfUp A x)
  | .trunc => .ok (A.trunc x)
  | .sign => .ok (if x == 0.0 then 0.0 else A.signum x)
  | .min => .ok ((x :: more).foldl smaller (1.0 / 0.0))
  | .max => .ok ((x :: more).foldl larger (-1.0 / 0.0))
  | .hypot => finite (.function f) ((x :: more).foldl A.hypot 0.0)

def MathFunction.apply (A : Arithmetic) (f : MathFunction) : List Float → Except Failure Float
  | [] => .error (.mismatch (.argumentsMissing f))
  | x :: more => f.applyTo A x more

end BuildingCode.Expression
