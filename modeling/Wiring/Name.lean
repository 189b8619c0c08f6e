set_option autoImplicit false

namespace Wiring.Name

/-- Names that have no outermost path: they open with a bracket, a reference, a pointer or `dyn`. -/
def isWhole (cs : List Char) : Bool :=
  ['(', '&', '[', '*'].any (fun c => cs.head? == some c) || "dyn ".toList.isPrefixOf cs

/-- What follows the last `::` that stands before the first `<`, if there is one. -/
def afterPath : List Char → Option (List Char)
  | [] => none
  | c :: rest =>
    if c = '<' then none
    else match afterPath rest with
      | some s => some s
      | none =>
        if c = ':' then
          match rest with
          | ':' :: s => some s
          | _ => none
        else none

def shorten (cs : List Char) : List Char :=
  if isWhole cs then cs else (afterPath cs).getD cs

def short (name : String) : String := String.ofList (shorten name.toList)

end Wiring.Name
