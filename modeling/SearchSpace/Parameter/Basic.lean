import SearchSpace.Identifier
import SearchSpace.Parameter.Domain

/-!
# Parameters

A `Parameter` has a name, a domain and a default value in the domain. Two parameters may be alike in
all of these; they are the same one only if they have the same `id`.

`Parameter.build` makes a parameter from a description, in which a range has its bounds and possibly
a step and a default value, and a listed set has its members in some order and possibly the place of
the default value. The numbers of a discrete parameter are put in increasing order.
-/

namespace SearchSpace

/-- A named dimension of a space. -/
structure Parameter where
  /-- Tells parameters apart; those made later have the greater one. -/
  id : Nat
  name : Identifier
  domain : Domain
  defaultValue : Value
  default_mem : domain.admits defaultValue = true

namespace Parameter

/-- Parameters are the same when their identities are. -/
instance : BEq Parameter where
  beq p q := p.id == q.id

/-- The order of two values by their places in the parameter's domain. -/
def compareValues (p : Parameter) (a b : Value) : Except Error Ordering :=
  match p.domain with
  | .ordinal _ | .discrete _ => do
    let rank (v : Value) : Except Error Nat :=
      match p.domain.rankOf? v with
      | some r => .ok r
      | none => .error (.invalidValue (.notInDomain v p.name.text))
    let i ← rank a
    let j ← rank b
    pure (compare i j)
  | _ => .error (.invalidType (.undeclaredOrder p.name.text))

/-- The law of a parameter that has been given none. -/
def defaultLaw (p : Parameter) : Except Error Law :=
  match p.domain.defaultLaw? with
  | some law => .ok law
  | none => .error (.invalidType (.notSampled p.name.text))

/-! ## Making parameters -/

/-- Where a value stands among others in increasing order, the last of them first: before those that
are not greater. -/
def insertLast (v : Value) : List Value → List Value
  | [] => [v]
  | w :: ws => match v.compare w with
    | .ok .lt => w :: insertLast v ws
    | _ => v :: w :: ws

/-- Values in increasing order; those of which neither is less keep their order. -/
def sortValues (values : List Value) : List Value :=
  (values.foldl (fun sorted v => insertLast v sorted) []).reverse

/-- A description of a domain and its default value. -/
inductive Description where
  /-- A range of integers; the step is taken toward zero, and the default is the lower bound. -/
  | ints (lower upper : Int64) (step : Option Float) (default : Option Value)
  /-- A range of binary64 numbers; the default is the lower bound. -/
  | floats (lower upper : Float) (step : Option Float) (default : Option Value)
  | categorical (values : List Value) (defaultIndex : Nat)
  | ordinal (values : List Value) (defaultIndex : Nat)
  | discrete (values : List Value) (defaultIndex : Nat)
  | text

/-- The member of a listed set that is described as its default. -/
def defaultMember (name : String) (values : List Value) (index : Nat) : Except Error Value :=
  match values[index]? with
  | some v => .ok v
  | none => .error (.invalidValue (.defaultIndex index name))

/-- The domain and the default value of a description. The default need not lie in the domain. -/
def Description.resolve (name : String) : Description → Except Error (Domain × Value)
  | ints lower upper step default =>
    let step := (step.map Binary64.truncate).getD 0
    if hbounds : lower < upper then
      if hstep : 0 ≤ step then
        .ok (.ints ⟨lower, upper, step, hbounds, hstep⟩, default.getD (.int lower))
      else .error (.invalidValue (.negativeStep name))
    else .error (.invalidValue (.emptyBounds (.int lower) (.int upper) name))
  | floats lower upper step default =>
    let step := step.getD 0.0
    if hbounds : (!lower.isFinite || !upper.isFinite || decide (upper ≤ lower)) = false then
      if hstep : (step.isNaN || decide (step < 0.0)) = false then
        let default := match default with
          | some (.int n) => .float (.ofFloat (Binary64.ofInt64 n))
          | some v => v
          | none => .float (.ofFloat lower)
        .ok (.floats ⟨lower, upper, step, hbounds, hstep⟩, default)
      else .error (.invalidValue (.negativeStep name))
    else .error (.invalidValue (.emptyBounds (.float lower) (.float upper) name))
  | categorical values index => do
    let default ← defaultMember name values index
    pure (.categorical (← ValueSet.ofList values), default)
  | ordinal values index => do
    let default ← defaultMember name values index
    pure (.ordinal (← ValueSet.ofList values), default)
  | discrete values index =>
    if values.isEmpty then .error (.invalidValue .emptyValueSet)
    else if hone : areNumbersOfOneType (sortValues values) = true then do
      let default ← defaultMember name values index
      match hset : ValueSet.fault? (sortValues values) with
      | none => pure (.discrete ⟨⟨sortValues values, hset⟩, hone⟩, default)
      | some fault => .error (.invalidValue fault)
    else .error (.invalidValue (.mixedNumbers name))
  | text => .ok (.text, .string "")

/-- The parameter of a description, under a name and with an identity. The name must be an
identifier and the default value must belong to the domain. -/
def build (id : Nat) (name : String) (description : Description) : Except Error Parameter := do
  let (domain, default) ← description.resolve name
  if hname : isIdentifier name = true then
    if hdefault : domain.admits default = true then
      pure ⟨id, ⟨name, hname⟩, domain, default, hdefault⟩
    else .error (.invalidValue (.defaultOutside default name))
  else .error (.invalidValue (.invalidName name))

end Parameter

end SearchSpace
