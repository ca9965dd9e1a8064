import LoopClosure.Syntax.Error
import LoopClosure.Syntax.Tree

/-!
# Assignment targets

An array or object literal that turns out to stand left of `=` is read again as a pattern:
`toTarget` gives the pattern, or the place where the literal has no reading as one.
-/

namespace LoopClosure.Syntax.Tree

/-- An identifier or a plain member access, in any number of parentheses. -/
def isSimpleTarget : Tree → Bool
  | .node _ _ (.identifier _) _ => true
  | .node _ _ (.member _ _ _ optional) _ => !optional
  | .node _ _ (.parenthesized _) [t] => isSimpleTarget t
  | _ => false

def badTarget {α : Type} (start stop : Nat) : Except SyntaxDiagnostic α :=
  .error ⟨start, stop - start, .invalidTarget⟩

mutual

/-- The pattern that a literal stands for. As an `element` of another pattern, an assignment is a
target with a default, and a spread collects the rest. -/
def toPattern (element : Bool) : Tree → Except SyntaxDiagnostic Tree
  | .node s e form kids =>
    match form, kids with
    | .assignment op l r, [target, value] =>
      if element && op = .punct .equals then
        match toPattern false target with
        | .ok target => .ok (.node s e (.assignmentPattern l r) [target, value])
        | .error d => .error d
      else badTarget s e
    | .spread i, [argument] =>
      if element then
        match toPattern false argument with
        | .ok argument => .ok (.node s e (.rest i) [argument])
        | .error d => .error d
      else badTarget s e
    | .identifier _, _ | .arrayPattern _, _ | .objectPattern _, _ => .ok (.node s e form kids)
    | .member _ _ _ optional, _ => if optional then badTarget s e else .ok (.node s e form kids)
    | .parenthesized _, [t] => if t.isSimpleTarget then .ok (.node s e form kids) else badTarget s e
    | .arrayLiteral elements, ts =>
      match toElements ts with
      | .ok ts => .ok (.node s e (.arrayPattern elements) ts)
      | .error d => .error d
    | .objectLiteral properties, ts =>
      match toProperties ts with
      | .ok ts => .ok (.node s e (.objectPattern properties) ts)
      | .error d => .error d
    | _, _ => badTarget s e

def toElements : List Tree → Except SyntaxDiagnostic (List Tree)
  | [] => .ok []
  | t :: ts =>
    match toPattern true t with
    | .error d => .error d
    | .ok t =>
      match toElements ts with
      | .error d => .error d
      | .ok ts => .ok (t :: ts)

def toProperty : Tree → Except SyntaxDiagnostic Tree
  | .node s e form kids =>
    match form, kids with
    | .property _ _ role traits, [key, value] =>
      if traits.method || role ≠ .init then .error ⟨s, e - s, .invalidDestructuring⟩
      else
        match toPattern true value with
        | .ok value => .ok (.node s e form [key, value])
        | .error d => .error d
    | .spread i, [argument] =>
      match toPattern false argument with
      | .ok argument => .ok (.node s e (.rest i) [argument])
      | .error d => .error d
    | _, kids => .ok (.node s e form kids)

def toProperties : List Tree → Except SyntaxDiagnostic (List Tree)
  | [] => .ok []
  | t :: ts =>
    match toProperty t with
    | .error d => .error d
    | .ok t =>
      match toProperties ts with
      | .error d => .error d
      | .ok ts => .ok (t :: ts)

end

/-- The target that an expression left of `=` stands for. -/
def toTarget (t : Tree) : Except SyntaxDiagnostic Tree := t.toPattern false

end LoopClosure.Syntax.Tree
