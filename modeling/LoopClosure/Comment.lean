import LoopClosure.Text.Cursor
import LoopClosure.Text.Split

/-!
# Comments

A comment is not part of the tree: the lexer records its range, and its text is read back from the
source on demand.

A block comment that begins with `global` or `globals` lists names of globals, separated by commas:
`name` for one that is only read, `name:true` or `name:false` to say whether it may be written.
-/

namespace LoopClosure

/-- The byte range of a comment, delimiters included; `block` for a comment between `/*` and `*/`. -/
structure Comment where
  start : Nat
  stop : Nat
  block : Bool
deriving DecidableEq, Repr

namespace Comment

/-- Takes `p` off the front of `cs`, if it stands there. -/
def dropStart (p cs : List Char) : List Char :=
  if p.isPrefixOf cs then cs.drop p.length else cs

/-- Takes `p` off the end of `cs`, if it stands there. -/
def dropEnd (p cs : List Char) : List Char :=
  if p.isSuffixOf cs then cs.take (cs.length - p.length) else cs

/-- The characters of the range; none if it is no range of the source. -/
def text (c : Comment) (source : List Char) : List Char :=
  (Text.slice? source c.start c.stop).getD []

/-- The text without its delimiters. -/
def value (c : Comment) (source : List Char) : List Char :=
  if c.block then dropEnd ['*', '/'] (dropStart ['/', '*'] (c.text source))
  else dropStart ['/', '/'] (c.text source)

/-! ## Global directives -/

open Text (trim trimStart isWhiteSpace)

/-- One entry. Anything else than a name with an optional boolean is none. -/
def directiveEntry? (entry : List Char) : Option (String × Bool) :=
  let entry := trim entry
  if entry = [] then none
  else
    match Text.splitOnce? ':' entry with
    | some (name, value) =>
      let name := trim name
      if name = [] || name.any isWhiteSpace then none
      else if trim value = ['t', 'r', 'u', 'e'] then some (String.ofList name, true)
      else if trim value = ['f', 'a', 'l', 's', 'e'] then some (String.ofList name, false)
      else none
    | none => if entry.any isWhiteSpace then none else some (String.ofList entry, false)

/-- The globals that a comment's text lists; `none` if it is no directive. Entries that begin with
`-` and malformed ones are passed over. -/
def globals? (value : List Char) : Option (List (String × Bool)) :=
  let rest :=
    match value with
    | c :: cs => if isWhiteSpace c then cs else value
    | [] => []
  let word := ['g', 'l', 'o', 'b', 'a', 'l']
  if word.isPrefixOf rest then
    let rest := dropStart ['s'] (rest.drop word.length)
    if (rest.head?.map isWhiteSpace).getD false then
      some ((Text.splitOn ',' (trimStart rest)).filterMap fun entry =>
        if (trimStart entry).head? = some '-' then none else directiveEntry? entry)
    else none
  else none

end Comment

end LoopClosure
