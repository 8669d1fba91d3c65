/-!
# Node kinds and fields

The kinds of syntax node and the field names that the analysis tells apart.  Everything else is
`other`, with the name the grammar gives it.  `Kind.ofName` and `Field.ofName` read grammar names,
and `Kind.name` gives the name back.
-/

namespace PlainComponents

/-- The kind of a syntax node. -/
inductive Kind where
  | identifier
  | comment
  | htmlComment
  | variableDeclarator
  | typeIdentifier
  | nestedTypeIdentifier
  | genericType
  | objectType
  | intersectionType
  | propertySignature
  | methodSignature
  | indexSignature
  | callSignature
  | constructSignature
  | arrowFunction
  | functionExpression
  | function
  | parenthesizedExpression
  | callExpression
  | arguments
  | requiredParameter
  | optionalParameter
  | objectPattern
  | shorthandPropertyPattern
  | pairPattern
  | objectAssignmentPattern
  | restPattern
  /-- Any other kind; a punctuation token is named by its own text. -/
  | other (name : String)
  deriving DecidableEq

namespace Kind

/-- The name of a kind in the grammar. -/
def name : Kind → String
  | identifier => "identifier"
  | comment => "comment"
  | htmlComment => "html_comment"
  | variableDeclarator => "variable_declarator"
  | typeIdentifier => "type_identifier"
  | nestedTypeIdentifier => "nested_type_identifier"
  | genericType => "generic_type"
  | objectType => "object_type"
  | intersectionType => "intersection_type"
  | propertySignature => "property_signature"
  | methodSignature => "method_signature"
  | indexSignature => "index_signature"
  | callSignature => "call_signature"
  | constructSignature => "construct_signature"
  | arrowFunction => "arrow_function"
  | functionExpression => "function_expression"
  | function => "function"
  | parenthesizedExpression => "parenthesized_expression"
  | callExpression => "call_expression"
  | arguments => "arguments"
  | requiredParameter => "required_parameter"
  | optionalParameter => "optional_parameter"
  | objectPattern => "object_pattern"
  | shorthandPropertyPattern => "shorthand_property_identifier_pattern"
  | pairPattern => "pair_pattern"
  | objectAssignmentPattern => "object_assignment_pattern"
  | restPattern => "rest_pattern"
  | other name => name

/-- The kind that goes by a name in the grammar. -/
def ofName : String → Kind
  | "identifier" => identifier
  | "comment" => comment
  | "html_comment" => htmlComment
  | "variable_declarator" => variableDeclarator
  | "type_identifier" => typeIdentifier
  | "nested_type_identifier" => nestedTypeIdentifier
  | "generic_type" => genericType
  | "object_type" => objectType
  | "intersection_type" => intersectionType
  | "property_signature" => propertySignature
  | "method_signature" => methodSignature
  | "index_signature" => indexSignature
  | "call_signature" => callSignature
  | "construct_signature" => constructSignature
  | "arrow_function" => arrowFunction
  | "function_expression" => functionExpression
  | "function" => function
  | "parenthesized_expression" => parenthesizedExpression
  | "call_expression" => callExpression
  | "arguments" => arguments
  | "required_parameter" => requiredParameter
  | "optional_parameter" => optionalParameter
  | "object_pattern" => objectPattern
  | "shorthand_property_identifier_pattern" => shorthandPropertyPattern
  | "pair_pattern" => pairPattern
  | "object_assignment_pattern" => objectAssignmentPattern
  | "rest_pattern" => restPattern
  | name => other name

theorem name_ofName (s : String) : (ofName s).name = s := by
  unfold ofName
  split <;> rfl

/-- Comments may stand anywhere and never count as part of a construct. -/
def isComment : Kind → Bool
  | comment | htmlComment => true
  | _ => false

/-- A type given by name, with or without arguments. -/
def isTypeReference : Kind → Bool
  | typeIdentifier | nestedTypeIdentifier | genericType => true
  | _ => false

/-- The kinds of type that may stand as the props of a component. -/
def isPropsShape : Kind → Bool
  | objectType | intersectionType => true
  | k => k.isTypeReference

end Kind

/-- The part that a node plays in its parent. -/
inductive Field where
  | name
  | type
  | value
  | module
  | typeArguments
  | arguments
  | parameter
  | parameters
  | pattern
  /-- Any other field. -/
  | other (name : String)
  deriving DecidableEq

/-- The field that goes by a name in the grammar. -/
def Field.ofName : String → Field
  | "name" => .name
  | "type" => .type
  | "value" => .value
  | "module" => .module
  | "type_arguments" => .typeArguments
  | "arguments" => .arguments
  | "parameter" => .parameter
  | "parameters" => .parameters
  | "pattern" => .pattern
  | s => .other s

end PlainComponents
