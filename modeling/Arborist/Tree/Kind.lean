/-!
# Kinds of nodes

A kind is the tag that a node carries in its `type` property.  The kinds of the ESTree vocabulary
are listed in a table with the name under which a rule handles them and with their child properties
in the order in which they are walked.  A tag outside the table is a kind too; it has no child
properties of its own.
-/

namespace Arborist

/-- The kind of a node, given by its `tag`.  Kinds outside of `table` are `isOther`. -/
structure Kind where
  tag : String
  deriving DecidableEq, Repr, Inhabited

namespace Kind

structure Entry where
  tag : String
  handler : String
  childKeys : List String
  deriving DecidableEq, Repr

def table : List Entry := [
  ⟨"ArrayExpression", "array_expression", ["elements"]⟩,
  ⟨"ArrayPattern", "array_pattern", ["elements"]⟩,
  ⟨"ArrowFunctionExpression", "arrow_function_expression", ["params", "body"]⟩,
  ⟨"AssignmentExpression", "assignment_expression", ["left", "right"]⟩,
  ⟨"AssignmentPattern", "assignment_pattern", ["left", "right"]⟩,
  ⟨"AwaitExpression", "await_expression", ["argument"]⟩,
  ⟨"BinaryExpression", "binary_expression", ["left", "right"]⟩,
  ⟨"BlockStatement", "block_statement", ["body"]⟩,
  ⟨"BreakStatement", "break_statement", ["label"]⟩,
  ⟨"CallExpression", "call_expression", ["callee", "arguments"]⟩,
  ⟨"CatchClause", "catch_clause", ["param", "body"]⟩,
  ⟨"ChainExpression", "chain_expression", ["expression"]⟩,
  ⟨"ClassBody", "class_body", ["body"]⟩,
  ⟨"ClassDeclaration", "class_declaration", ["id", "superClass", "body"]⟩,
  ⟨"ClassExpression", "class_expression", ["id", "superClass", "body"]⟩,
  ⟨"ConditionalExpression", "conditional_expression", ["test", "consequent", "alternate"]⟩,
  ⟨"ContinueStatement", "continue_statement", ["label"]⟩,
  ⟨"DebuggerStatement", "debugger_statement", []⟩,
  ⟨"DoWhileStatement", "do_while_statement", ["body", "test"]⟩,
  ⟨"EmptyStatement", "empty_statement", []⟩,
  ⟨"ExportAllDeclaration", "export_all_declaration", ["exported", "source"]⟩,
  ⟨"ExportDefaultDeclaration", "export_default_declaration", ["declaration"]⟩,
  ⟨"ExportNamedDeclaration", "export_named_declaration", ["declaration", "specifiers", "source"]⟩,
  ⟨"ExportSpecifier", "export_specifier", ["local", "exported"]⟩,
  ⟨"ExpressionStatement", "expression_statement", ["expression"]⟩,
  ⟨"ForInStatement", "for_in_statement", ["left", "right", "body"]⟩,
  ⟨"ForOfStatement", "for_of_statement", ["left", "right", "body"]⟩,
  ⟨"ForStatement", "for_statement", ["init", "test", "update", "body"]⟩,
  ⟨"FunctionDeclaration", "function_declaration", ["id", "params", "body"]⟩,
  ⟨"FunctionExpression", "function_expression", ["id", "params", "body"]⟩,
  ⟨"Identifier", "identifier", []⟩,
  ⟨"IfStatement", "if_statement", ["test", "consequent", "alternate"]⟩,
  ⟨"ImportDeclaration", "import_declaration", ["specifiers", "source"]⟩,
  ⟨"ImportDefaultSpecifier", "import_default_specifier", ["local"]⟩,
  ⟨"ImportExpression", "import_expression", ["source"]⟩,
  ⟨"ImportNamespaceSpecifier", "import_namespace_specifier", ["local"]⟩,
  ⟨"ImportSpecifier", "import_specifier", ["imported", "local"]⟩,
  ⟨"LabeledStatement", "labeled_statement", ["label", "body"]⟩,
  ⟨"Literal", "literal", []⟩,
  ⟨"LogicalExpression", "logical_expression", ["left", "right"]⟩,
  ⟨"MemberExpression", "member_expression", ["object", "property"]⟩,
  ⟨"MetaProperty", "meta_property", ["meta", "property"]⟩,
  ⟨"MethodDefinition", "method_definition", ["key", "value"]⟩,
  ⟨"NewExpression", "new_expression", ["callee", "arguments"]⟩,
  ⟨"ObjectExpression", "object_expression", ["properties"]⟩,
  ⟨"ObjectPattern", "object_pattern", ["properties"]⟩,
  ⟨"PrivateIdentifier", "private_identifier", []⟩,
  ⟨"Program", "program", ["body"]⟩,
  ⟨"Property", "property", ["key", "value"]⟩,
  ⟨"PropertyDefinition", "property_definition", ["key", "value"]⟩,
  ⟨"RestElement", "rest_element", ["argument"]⟩,
  ⟨"ReturnStatement", "return_statement", ["argument"]⟩,
  ⟨"SequenceExpression", "sequence_expression", ["expressions"]⟩,
  ⟨"SpreadElement", "spread_element", ["argument"]⟩,
  ⟨"StaticBlock", "static_block", ["body"]⟩,
  ⟨"Super", "super_node", []⟩,
  ⟨"SwitchCase", "switch_case", ["test", "consequent"]⟩,
  ⟨"SwitchStatement", "switch_statement", ["discriminant", "cases"]⟩,
  ⟨"TaggedTemplateExpression", "tagged_template_expression", ["tag", "quasi"]⟩,
  ⟨"TemplateElement", "template_element", []⟩,
  ⟨"TemplateLiteral", "template_literal", ["quasis", "expressions"]⟩,
  ⟨"ThisExpression", "this_expression", []⟩,
  ⟨"ThrowStatement", "throw_statement", ["argument"]⟩,
  ⟨"TryStatement", "try_statement", ["block", "handler", "finalizer"]⟩,
  ⟨"UnaryExpression", "unary_expression", ["argument"]⟩,
  ⟨"UpdateExpression", "update_expression", ["argument"]⟩,
  ⟨"VariableDeclaration", "variable_declaration", ["declarations"]⟩,
  ⟨"VariableDeclarator", "variable_declarator", ["id", "init"]⟩,
  ⟨"WhileStatement", "while_statement", ["test", "body"]⟩,
  ⟨"WithStatement", "with_statement", ["object", "body"]⟩,
  ⟨"YieldExpression", "yield_expression", ["argument"]⟩]

def entry? (k : Kind) : Option Entry :=
  table.find? fun e => e.tag == k.tag

def isOther (k : Kind) : Bool := k.entry?.isNone

def handler (k : Kind) : String :=
  match k.entry? with
  | some e => e.handler
  | none => "other"

def childKeys (k : Kind) : List String :=
  match k.entry? with
  | some e => e.childKeys
  | none => []

/-! ### Kinds that rules look for -/

def arrowFunctionExpression : Kind := ⟨"ArrowFunctionExpression"⟩

def awaitExpression : Kind := ⟨"AwaitExpression"⟩

def callExpression : Kind := ⟨"CallExpression"⟩

def debuggerStatement : Kind := ⟨"DebuggerStatement"⟩

def doWhileStatement : Kind := ⟨"DoWhileStatement"⟩

def forInStatement : Kind := ⟨"ForInStatement"⟩

def forOfStatement : Kind := ⟨"ForOfStatement"⟩

def forStatement : Kind := ⟨"ForStatement"⟩

def functionDeclaration : Kind := ⟨"FunctionDeclaration"⟩

def functionExpression : Kind := ⟨"FunctionExpression"⟩

def identifier : Kind := ⟨"Identifier"⟩

def newExpression : Kind := ⟨"NewExpression"⟩

def whileStatement : Kind := ⟨"WhileStatement"⟩

end Kind
end Arborist
