/-! The values of one evaluation, by slot: first the parameters, then what each intermediate
adds. -/
namespace BuildingCode.Formula

structure Ledger where
  params : List Float
  intermediates : List Float
deriving DecidableEq

namespace Ledger

def ofParams (params : List Float) : Ledger := ⟨params, []⟩

def values (l : Ledger) : List Float := l.params ++ l.intermediates

def size (l : Ledger) : Nat := l.values.length

def get? (l : Ledger) (slot : Nat) : Option Float := l.values[slot]?

def push (l : Ledger) (value : Float) : Ledger := ⟨l.params, l.intermediates ++ [value]⟩

@[simp] theorem values_ofParams (params : List Float) : (ofParams params).values = params :=
  List.append_nil params

@[simp] theorem size_ofParams (params : List Float) : (ofParams params).size = params.length := by
  simp [size]

@[simp] theorem values_push (l : Ledger) (value : Float) :
    (l.push value).values = l.values ++ [value] := by
  simp [push, values]

@[simp] theorem size_push (l : Ledger) (value : Float) : (l.push value).size = l.size + 1 := by
  simp [size]

theorem get?_push_size (l : Ledger) (value : Float) : (l.push value).get? l.size = some value := by
  simp [get?, size]

end Ledger
end BuildingCode.Formula
