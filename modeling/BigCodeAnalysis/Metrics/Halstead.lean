import Mathlib.Algebra.BigOperators.Group.List.Basic
import Mathlib.Algebra.GroupWithZero.Nat

/-! The operator and operand occurrence maps of a space, and the counts read off them
when the space is finalised. -/

namespace BigCodeAnalysis.Metrics.Halstead

variable {K : Type*} [DecidableEq K]

/-- A hash map from keys to occurrence counts. Its order is the one in which the keys
were first seen. -/
abbrev CountMap (K : Type*) := List (K × ℕ)

namespace CountMap

def keys {K : Type*} (m : CountMap K) : List K := m.map Prod.fst

/-- `*m.entry(key).or_insert(0) += n`. -/
def bump : CountMap K → K → ℕ → CountMap K
  | [], key, n => [(key, n)]
  | (k, v) :: m, key, n => if k = key then (k, v + n) :: m else (k, v) :: bump m key n

def merge (self other : CountMap K) : CountMap K :=
  other.foldl (fun m p => m.bump p.1 p.2) self

end CountMap

/-- One map per kind of key: operators by grammar symbol, primitive types and operands
by their text. -/
structure HalsteadMaps where
  operators : CountMap UInt16
  primitiveOperators : CountMap (List UInt8)
  operands : CountMap (List UInt8)
  deriving DecidableEq

structure Stats where
  uOperators : ℕ
  operators : ℕ
  uOperands : ℕ
  operands : ℕ
  deriving DecidableEq, Repr

namespace HalsteadMaps

def new : HalsteadMaps := ⟨[], [], []⟩

def merge (self other : HalsteadMaps) : HalsteadMaps where
  operators := self.operators.merge other.operators
  primitiveOperators := self.primitiveOperators.merge other.primitiveOperators
  operands := self.operands.merge other.operands

def finalize (maps : HalsteadMaps) : Stats where
  uOperators := maps.operators.length + maps.primitiveOperators.length
  operators := (maps.operators.map Prod.snd).sum + (maps.primitiveOperators.map Prod.snd).sum
  uOperands := maps.operands.length
  operands := (maps.operands.map Prod.snd).sum

end HalsteadMaps

end BigCodeAnalysis.Metrics.Halstead
