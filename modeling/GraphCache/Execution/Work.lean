import GraphCache.Resolver.Basic

/-!
# Work left behind by completed fields

Completing a value yields the value and may leave work behind: faults to be reported and fields
whose resolvers have not finished. When a field of an object is replaced by a later one with the
same response key, the work of the replaced field is given up.

## Main definitions

* `Trail`: the position of a value, as a path and as a key for ordering.
* `Trail.positionsLE`: the order of positions.
* `Fault`, `Deferred`, `Work`: faults, unfinished fields and both together.
* `Assembler`: an object under construction, with the work of each of its fields.
-/

namespace GraphCache

/-- The position of a value: its path in the response, and the positions of fields in their
selection sets and of items in their lists, from the root. -/
structure Trail where
  /-- The path in the response data. -/
  path : Path := []
  /-- The positions, which order faults as in the query. -/
  order : List Nat := []
  deriving DecidableEq

namespace Trail

/-- The position of a field of the object at a position. -/
def field (trail : Trail) (position : Nat) (key : String) : Trail :=
  ⟨trail.path ++ [.key key], trail.order ++ [position]⟩

/-- The position of an item of the list at a position. -/
def index (trail : Trail) (position : Nat) : Trail :=
  ⟨trail.path ++ [.index position], trail.order ++ [position]⟩

/-- Whether the first positions come no later than the second ones: an outer value comes before
its parts, and parts come in their order. -/
def positionsLE : List Nat → List Nat → Bool
  | [], _ => true
  | _ :: _, [] => false
  | i :: is, j :: js => i < j || (i == j && positionsLE is js)

theorem positionsLE_total (is js : List Nat) : positionsLE is js || positionsLE js is := by
  induction is generalizing js with
  | nil => simp [positionsLE]
  | cons i is ih =>
    cases js with
    | nil => simp [positionsLE]
    | cons j js =>
      rcases Nat.lt_trichotomy i j with h | rfl | h
      · simp [positionsLE, h]
      · simpa [positionsLE] using ih js
      · simp [positionsLE, h]

theorem positionsLE_trans {is js ks : List Nat} (hij : positionsLE is js)
    (hjk : positionsLE js ks) : positionsLE is ks := by
  induction is generalizing js ks with
  | nil => simp [positionsLE]
  | cons i is ih =>
    cases js with
    | nil => simp [positionsLE] at hij
    | cons j js =>
      cases ks with
      | nil => simp [positionsLE] at hjk
      | cons k ks =>
        simp only [positionsLE, Bool.or_eq_true, Bool.and_eq_true, decide_eq_true_eq,
          beq_iff_eq] at hij hjk ⊢
        rcases hij with h | ⟨rfl, hij⟩ <;> rcases hjk with h' | ⟨rfl, hjk⟩
        · exact .inl (by omega)
        · exact .inl h
        · exact .inl h'
        · exact .inr ⟨rfl, ih hij hjk⟩

end Trail

/-- An error of the field at a position. -/
structure Fault where
  /-- Where the error belongs. -/
  trail : Trail
  /-- What went wrong. -/
  error : FieldError
  deriving DecidableEq

/-- The fault as it is reported. -/
def Fault.toGraphQLError (fault : Fault) : GraphQLError :=
  fault.error.toGraphQLError fault.trail.path

/-- A local field whose resolver has answered with a task. -/
structure Deferred (World : Type) where
  /-- The place of the field in the sequence of all deferred fields of an execution. -/
  id : Nat
  /-- Where the value belongs. -/
  trail : Trail
  /-- The field. -/
  plan : FieldPlan
  /-- The type on which the resolver is registered. -/
  typeName : String
  /-- The task. -/
  task : Task World

/-- What completing a value leaves behind. -/
structure Work (World : Type) where
  /-- Faults to be reported. -/
  faults : List Fault := []
  /-- Fields to be finished later, in the order in which they were deferred. -/
  deferred : List (Deferred World) := []
  /-- Faults of fields that were replaced. -/
  droppedFaults : List Fault := []
  /-- Deferred fields that were replaced, or that belong to replaced fields. -/
  superseded : List (Deferred World) := []

namespace Work

variable {World : Type}

/-- No work. -/
def none : Work World :=
  {}

/-- The work of reporting one fault. -/
def ofFault (trail : Trail) (error : FieldError) : Work World :=
  { faults := [⟨trail, error⟩] }

/-- The work of finishing one deferred field. -/
def ofDeferred (deferred : Deferred World) : Work World :=
  { deferred := [deferred] }

/-- First one work, then another. -/
def append (a b : Work World) : Work World :=
  { faults := a.faults ++ b.faults
    deferred := a.deferred ++ b.deferred
    droppedFaults := a.droppedFaults ++ b.droppedFaults
    superseded := a.superseded ++ b.superseded }

instance : Append (Work World) := ⟨append⟩

/-- Whether nothing was ever left behind, not even by a replaced field. -/
def isClean (work : Work World) : Bool :=
  work.faults.isEmpty && work.deferred.isEmpty && work.droppedFaults.isEmpty
    && work.superseded.isEmpty

/-- What remains of the work of a replaced field: it is known that there was some. -/
def giveUp (work : Work World) : Work World :=
  { droppedFaults := work.droppedFaults ++ work.faults
    superseded := work.superseded ++ work.deferred }

@[simp] theorem deferred_append (a b : Work World) :
    (a ++ b).deferred = a.deferred ++ b.deferred := rfl

@[simp] theorem faults_append (a b : Work World) : (a ++ b).faults = a.faults ++ b.faults := rfl

@[simp] theorem deferred_none : (none : Work World).deferred = [] := rfl

@[simp] theorem deferred_ofFault (trail : Trail) (error : FieldError) :
    (ofFault trail error : Work World).deferred = [] := rfl

@[simp] theorem deferred_ofDeferred (deferred : Deferred World) :
    (ofDeferred deferred).deferred = [deferred] := rfl

@[simp] theorem deferred_giveUp (work : Work World) : work.giveUp.deferred = [] := rfl

end Work

/-- An object under construction. The first field with a response key fixes the key's place, the
last one its value. -/
structure Assembler (World : Type) where
  /-- The fields so far. -/
  object : Object := []
  /-- The work of the fields that have some, each under its response key, the latest field last. -/
  pending : List (String × Work World) := []
  /-- The work of replaced fields, in the order in which they were replaced. -/
  replaced : List (Work World) := []

namespace Assembler

variable {World : Type}

/-- No field yet. -/
def empty : Assembler World :=
  {}

/-- The work of the current field with a key, if it has some. -/
def workOf? (assembler : Assembler World) (key : String) : Option (Work World) :=
  Dict.get? assembler.pending key

/-- Sets a field, and returns the work of the field that is replaced, if there was any. -/
def insert (assembler : Assembler World) (key : String) (value : Json) (work : Work World) :
    Assembler World × Option (Work World) :=
  let superseded := assembler.workOf? key
  let others := assembler.pending.filter (·.1 != key)
  ({ object := Dict.insert assembler.object key value
     pending := if work.isClean then others else others ++ [(key, work)]
     replaced := assembler.replaced ++ superseded.toList },
    superseded)

/-- The work of all fields: that of the current ones, and what remains of that of replaced ones. -/
def work (assembler : Assembler World) : Work World :=
  (assembler.pending.map (·.2)).foldl (· ++ ·) Work.none
    ++ (assembler.replaced.map Work.giveUp).foldl (· ++ ·) Work.none

end Assembler

end GraphCache
