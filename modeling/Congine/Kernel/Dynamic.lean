import Congine.Kernel.Models
/-!
# Operations on decoded values

What the interpreter does with a decoded value that is not checked
first: printing, iteration, membership, comparison, length and lookup,
each with the exception it raises on a value it does not take.
-/

namespace Congine

variable [Host]

mutual

/-- No integer in the value has more digits than the interpreter converts. -/
def printable : Json → Bool
  | .int i => i.natAbs < 10 ^ Text.maxIntDigits
  | .arr xs => printableArr xs
  | .obj fs => printableObj fs
  | _ => true

def printableArr : List Json → Bool
  | [] => true
  | x :: xs => printable x && printableArr xs

def printableObj : List (String × Json) → Bool
  | [] => true
  | (_, x) :: fs => printable x && printableObj fs

end

/-- `str(value)`. -/
def pyStr : Json → Except Exc String
  | .str s => .ok s
  | j => if printable j then .ok (Host.repr j) else .error .valueError

/-- `for x in value`. -/
def pyIter : Json → Except Exc (List Json)
  | .arr xs => .ok xs
  | .str s => .ok (s.toList.map fun c => .str (String.singleton c))
  | .obj fs => .ok (fs.map fun f => .str f.1)
  | _ => .error .typeError

/-- `value.items()`. -/
def pyItems : Json → Except Exc (List (String × Json))
  | .obj fs => .ok fs
  | _ => .error .attributeError

/-- `value.get(key)`, with `none` for an absent key. -/
def pyGet (j : Json) (key : String) : Except Exc (Option Json) :=
  match j with
  | .obj fs => .ok (fs.lookup key)
  | _ => .error .attributeError

/-- `value[key]`. -/
def pyGetItem (j : Json) (key : String) : Except Exc Json :=
  match j with
  | .obj fs =>
      match fs.lookup key with
      | some value => .ok value
      | none => .error .keyError
  | _ => .error .typeError

/-- `len(value)`. -/
def pyLen : Json → Except Exc ℕ
  | .str s => .ok s.length
  | .arr xs => .ok xs.length
  | .obj fs => .ok fs.length
  | _ => .error .typeError

/-- `a < b`, one of them a number. -/
def pyLt (a b : Json) : Except Exc Bool :=
  match a.number?, b.number? with
  | some x, some y => .ok (x < y)
  | _, _ => .error .typeError

/-- `key in fields`, for a dictionary with string keys. -/
def pyInDict (key : Json) (fields : List (String × Json)) : Except Exc Bool :=
  match key.hash? with
  | some (.str s) => .ok (fields.lookup s).isSome
  | some _ => .ok false
  | none => .error .typeError

/-- `x in container`. -/
def pyIn (x container : Json) : Except Exc Bool :=
  match container with
  | .arr xs => .ok (xs.any fun y => x.eq y)
  | .obj fs => pyInDict x fs
  | .str s =>
      match x with
      | .str t => .ok (t.toList <:+: s.toList)
      | _ => .error .typeError
  | _ => .error .typeError

end Congine
