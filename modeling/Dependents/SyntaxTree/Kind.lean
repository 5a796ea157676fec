/-! The kinds of syntax node that the analysis tells apart. -/
namespace Dependents

inductive NodeKind where
  | program
  | importStatement
  | importClause
  | namedImports
  | importSpecifier
  | callExpression
  | functionDeclaration
  | generatorFunctionDeclaration
  | methodDefinition
  | arrowFunction
  | functionExpression
  | variableDeclarator
  | identifier
  | stringLiteral
  | other
deriving DecidableEq, Repr

namespace NodeKind

/-- The kind that a grammar's name stands for. Grammars spell function expressions in three
ways. -/
def ofGrammar : String → NodeKind
  | "program" => .program
  | "import_statement" => .importStatement
  | "import_clause" => .importClause
  | "named_imports" => .namedImports
  | "import_specifier" => .importSpecifier
  | "call_expression" => .callExpression
  | "function_declaration" => .functionDeclaration
  | "generator_function_declaration" => .generatorFunctionDeclaration
  | "method_definition" => .methodDefinition
  | "arrow_function" => .arrowFunction
  | "function" | "function_expression" | "generator_function" => .functionExpression
  | "variable_declarator" => .variableDeclarator
  | "identifier" => .identifier
  | "string" => .stringLiteral
  | _ => .other

def isFunctionLike : NodeKind → Bool
  | .functionDeclaration | .generatorFunctionDeclaration | .methodDefinition | .arrowFunction
  | .functionExpression => true
  | _ => false

end NodeKind

end Dependents
