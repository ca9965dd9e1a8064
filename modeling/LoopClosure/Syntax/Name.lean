import LoopClosure.Syntax.Form

/-!
# Names of node forms
-/

namespace LoopClosure.Syntax.Form

variable {α : Type}

/-- The name of a form in messages and dumps. -/
def name : Form α → String
  | .program .. => "Program"
  | .bindings .. => "VariableDeclaration"
  | .declarator .. => "VariableDeclarator"
  | .function .declaration .. => "FunctionDeclaration"
  | .function .expression .. => "FunctionExpression"
  | .function .arrow .. => "ArrowFunction"
  | .classBody .declaration .. => "ClassDeclaration"
  | .classBody .expression .. => "ClassExpression"
  | .method .. => "MethodDefinition"
  | .field .. => "FieldDefinition"
  | .block .. => "Block"
  | .empty => "Empty"
  | .debugger => "Debugger"
  | .expression .. => "ExpressionStatement"
  | .ifElse .. => "If"
  | .forLoop .. => "For"
  | .forEach .keys .. => "ForIn"
  | .forEach .values .. => "ForOf"
  | .whileLoop .. => "While"
  | .doWhile .. => "DoWhile"
  | .returns .. => "Return"
  | .jump .toEnd _ => "Break"
  | .jump .toNext _ => "Continue"
  | .throws .. => "Throw"
  | .tryCatch .. => "Try"
  | .catchClause .. => "CatchClause"
  | .switch .. => "Switch"
  | .switchCase .. => "SwitchCase"
  | .labeled .. => "Labeled"
  | .withObject .. => "With"
  | .identifier .. => "Identifier"
  | .this => "This"
  | .super => "Super"
  | .literal .. => "Literal"
  | .template .. => "TemplateLiteral"
  | .taggedTemplate .. => "TaggedTemplate"
  | .arrayLiteral .. => "ArrayLiteral"
  | .objectLiteral .. => "ObjectLiteral"
  | .property .. => "Property"
  | .spread .. => "Spread"
  | .member .. => "Member"
  | .call .. => "Call"
  | .new .. => "New"
  | .unary .. => "Unary"
  | .update .. => "Update"
  | .binary .. => "Binary"
  | .assignment .. => "Assignment"
  | .conditional .. => "Conditional"
  | .sequence .. => "Sequence"
  | .parenthesized .. => "Parenthesized"
  | .yield .. => "Yield"
  | .await .. => "Await"
  | .arrayPattern .. => "ArrayPattern"
  | .objectPattern .. => "ObjectPattern"
  | .assignmentPattern .. => "AssignmentPattern"
  | .rest .. => "RestElement"

end LoopClosure.Syntax.Form
