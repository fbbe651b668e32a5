/-!
# Components of mangled names

What a mangled name says, as a tree. Texts are lists of characters that each stand for one byte.

Contents:

* `Builtin`, `Operator` — the types and the operators with codes, with the two tables;
* `Qualifier`, `Component` — the tree.
-/

namespace PathSafety.Name.Mangled

/-- How the literals of a built-in type are written. -/
inductive LiteralStyle where
  /-- The type in parentheses, then the value. -/
  | plain
  /-- The value and a suffix. -/
  | number (suffix : String)
  | bool
  /-- The type in parentheses, then the value in brackets. -/
  | float
  deriving DecidableEq, Repr

/-- A type with a code of its own. -/
structure Builtin where
  name : String
  style : LiteralStyle := .plain
  deriving DecidableEq, Repr

namespace Builtin

/-- The type of no value. -/
def void : Builtin := ⟨"void", .plain⟩

/-- The type of the null pointer. -/
def nullptr : Builtin := ⟨"decltype(nullptr)", .plain⟩

/-- The type of plain integers. -/
def int : Builtin := ⟨"int", .number ""⟩

/-- The types of one letter. -/
def ofLetter? : Char → Option Builtin
  | 'a' => some ⟨"signed char", .plain⟩
  | 'b' => some ⟨"bool", .bool⟩
  | 'c' => some ⟨"char", .plain⟩
  | 'd' => some ⟨"double", .float⟩
  | 'e' => some ⟨"long double", .float⟩
  | 'f' => some ⟨"float", .float⟩
  | 'g' => some ⟨"__float128", .float⟩
  | 'h' => some ⟨"unsigned char", .plain⟩
  | 'i' => some int
  | 'j' => some ⟨"unsigned int", .number "u"⟩
  | 'l' => some ⟨"long", .number "l"⟩
  | 'm' => some ⟨"unsigned long", .number "ul"⟩
  | 'n' => some ⟨"__int128", .plain⟩
  | 'o' => some ⟨"unsigned __int128", .plain⟩
  | 's' => some ⟨"short", .plain⟩
  | 't' => some ⟨"unsigned short", .plain⟩
  | 'v' => some void
  | 'w' => some ⟨"wchar_t", .plain⟩
  | 'x' => some ⟨"long long", .number "ll"⟩
  | 'y' => some ⟨"unsigned long long", .number "ull"⟩
  | 'z' => some ⟨"...", .plain⟩
  | _ => none

/-- The types of the letter `D` and another. -/
def ofExtendedLetter? : Char → Option Builtin
  | 'f' => some ⟨"decimal32", .plain⟩
  | 'd' => some ⟨"decimal64", .plain⟩
  | 'e' => some ⟨"decimal128", .plain⟩
  | 'h' => some ⟨"half", .float⟩
  | 'u' => some ⟨"char8_t", .plain⟩
  | 's' => some ⟨"char16_t", .plain⟩
  | 'i' => some ⟨"char32_t", .plain⟩
  | 'n' => some nullptr
  | _ => none

end Builtin

/-- An operator with a code of two letters. -/
structure Operator where
  code : String
  /-- What is written in expressions. -/
  text : String
  /-- How many operands it has in expressions. -/
  operands : Nat
  deriving DecidableEq, Repr

namespace Operator

/-- All operators. -/
def table : List Operator :=
  [⟨"aN", "&=", 2⟩, ⟨"aS", "=", 2⟩, ⟨"aa", "&&", 2⟩, ⟨"ad", "&", 1⟩, ⟨"an", "&", 2⟩,
   ⟨"at", "alignof ", 1⟩, ⟨"aw", "co_await ", 1⟩, ⟨"az", "alignof ", 1⟩, ⟨"cc", "const_cast", 2⟩,
   ⟨"cl", "()", 2⟩, ⟨"cm", ",", 2⟩, ⟨"co", "~", 1⟩, ⟨"dV", "/=", 2⟩, ⟨"dX", "[...]=", 3⟩,
   ⟨"da", "delete[] ", 1⟩, ⟨"dc", "dynamic_cast", 2⟩, ⟨"de", "*", 1⟩, ⟨"di", "=", 2⟩,
   ⟨"dl", "delete ", 1⟩, ⟨"ds", ".*", 2⟩, ⟨"dt", ".", 2⟩, ⟨"dv", "/", 2⟩, ⟨"dx", "]=", 2⟩,
   ⟨"eO", "^=", 2⟩, ⟨"eo", "^", 2⟩, ⟨"eq", "==", 2⟩, ⟨"fL", "...", 3⟩, ⟨"fR", "...", 3⟩,
   ⟨"fl", "...", 2⟩, ⟨"fr", "...", 2⟩, ⟨"ge", ">=", 2⟩, ⟨"gs", "::", 1⟩, ⟨"gt", ">", 2⟩,
   ⟨"ix", "[]", 2⟩, ⟨"lS", "<<=", 2⟩, ⟨"le", "<=", 2⟩, ⟨"li", "operator\"\" ", 1⟩, ⟨"ls", "<<", 2⟩,
   ⟨"lt", "<", 2⟩, ⟨"mI", "-=", 2⟩, ⟨"mL", "*=", 2⟩, ⟨"mi", "-", 2⟩, ⟨"ml", "*", 2⟩, ⟨"mm", "--", 1⟩,
   ⟨"na", "new[]", 3⟩, ⟨"ne", "!=", 2⟩, ⟨"ng", "-", 1⟩, ⟨"nt", "!", 1⟩, ⟨"nw", "new", 3⟩,
   ⟨"nx", "noexcept", 1⟩, ⟨"oR", "|=", 2⟩, ⟨"oo", "||", 2⟩, ⟨"or", "|", 2⟩, ⟨"pL", "+=", 2⟩,
   ⟨"pl", "+", 2⟩, ⟨"pm", "->*", 2⟩, ⟨"pp", "++", 1⟩, ⟨"ps", "+", 1⟩, ⟨"pt", "->", 2⟩,
   ⟨"qu", "?", 3⟩, ⟨"rM", "%=", 2⟩, ⟨"rS", ">>=", 2⟩, ⟨"rc", "reinterpret_cast", 2⟩, ⟨"rm", "%", 2⟩,
   ⟨"rs", ">>", 2⟩, ⟨"sP", "sizeof...", 1⟩, ⟨"sZ", "sizeof...", 1⟩, ⟨"sc", "static_cast", 2⟩,
   ⟨"ss", "<=>", 2⟩, ⟨"st", "sizeof ", 1⟩, ⟨"sz", "sizeof ", 1⟩, ⟨"te", "typeid ", 1⟩,
   ⟨"ti", "typeid ", 1⟩, ⟨"tr", "throw", 0⟩, ⟨"tw", "throw ", 1⟩]

/-- The operator of a code. -/
def ofCode? (code : List Char) : Option Operator := table.find? (·.code.toList == code)

/-- Whether the operator is one of the casts with a name. -/
def isNamedCast (o : Operator) : Bool := ["sc", "dc", "cc", "rc"].contains o.code

/-- Whether the operator stands for a fold of an operator over a pack. -/
def isFold (o : Operator) : Bool := ["fl", "fr", "fL", "fR"].contains o.code

/-- Whether the operator says which part of an object is initialized. -/
def isDesignator (o : Operator) : Bool := ["di", "dx", "dX"].contains o.code

/-- Whether the operator is written behind its operand unless the name says otherwise. -/
def isStep (o : Operator) : Bool := ["pp", "mm"].contains o.code

end Operator

/-- What is added to a type, or to a function for the object that it is called on. -/
inductive Qualifier where
  | restrict | volatile | const
  deriving DecidableEq, Repr

/-- A part of a name. -/
inductive Component where
  | name (text : List Char)
  /-- An abbreviated name of the standard library. -/
  | standard (text : String)
  | builtin (b : Builtin)
  | tagged (entity tag : Component)
  | qualified (scope entity : Component)
  /-- Something inside a function. -/
  | nested (function entity : Component)
  /-- Something inside a default argument, counted from the last. -/
  | defaultArgument (number : Nat) (entity : Component)
  | typed (entity type : Component)
  | template (entity : Component) (args : List Component)
  /-- Several template arguments in the place of one. -/
  | pack (args : List Component)
  | templateParameter (index : Nat)
  /-- A parameter of the function itself; zero is the object that it is called on. -/
  | functionParameter (number : Nat)
  | constructor (entity : Component)
  | destructor (entity : Component)
  | operator (o : Operator)
  | extendedOperator (operands : Nat) (entity : Component)
  | conversion (type : Component)
  | cast (type : Component)
  | literalOperator (o : Operator) (suffix : Component)
  | lambda (parameters : List Component) (number : Nat)
  | unnamedType (number : Nat)
  /-- The names that the parts of one object are bound to. -/
  | binding (names : List Component)
  /-- Something that the compiler makes for an entity, introduced by a phrase. -/
  | special (phrase : String) (entity : Component)
  | constructionTable (base derived : Component)
  | temporary (entity : Component) (number : Nat)
  | clone (entity suffix : Component)
  | qualifiedType (q : Qualifier) (type : Component)
  | vendorQualified (type qualifier : Component)
  | pointer (type : Component)
  | reference (type : Component)
  | rvalueReference (type : Component)
  | complex (type : Component)
  | imaginary (type : Component)
  | vendorType (entity : Component)
  | function (result : Option Component) (parameters : List Component)
  | array (size : Option Component) (element : Component)
  | vector (size element : Component)
  | memberPointer (owner member : Component)
  | decltype (expression : Component)
  | expansion (pattern : Component)
  | fixedPoint (saturating accumulating : Bool) (length : Component)
  /-- A qualifier of the object that a function is called on. -/
  | qualifiedThis (q : Qualifier) (entity : Component)
  | lvalueThis (entity : Component)
  | rvalueThis (entity : Component)
  | transactionSafe (entity : Component)
  | noexcept (entity : Component) (condition : Option Component)
  | throwing (entity : Component) (types : List Component)
  | nullary (o : Component)
  | unary (o operand : Component)
  /-- An operator behind its operand. -/
  | postfixed (o operand : Component)
  | binary (o : Operator) (left right : Component)
  | ternary (o : Operator) (first second third : Component)
  /-- Makes an object at a place, of a type, from initial values. -/
  | allocation (place : List Component) (type : Component) (initial : Option Component)
  /-- Arguments of a call or of an initialization. -/
  | arguments (items : List Component)
  | literal (negative : Bool) (type : Component) (value : List Char)
  | initializer (type : Option Component) (items : List Component)
  | vendorExpression (entity : Component) (args : List Component)
  | number (n : Nat)
  deriving Inhabited

namespace Component

/-- Whether a component qualifies a function and not its type. -/
def qualifiesFunction : Component → Bool
  | qualifiedThis .. | lvalueThis _ | rvalueThis _ | transactionSafe _ | noexcept .. | throwing .. =>
    true
  | _ => false

/-- The component without the qualifiers of a function that it begins with. -/
def dropQualifiers : Component → Component
  | qualifiedThis _ c | lvalueThis c | rvalueThis c | transactionSafe c | noexcept c _
  | throwing c _ => c.dropQualifiers
  | c => c

/-- Whether an entity is a constructor, a destructor or a conversion, none of which has a result. -/
def hasNoResult : Component → Bool
  | qualified _ c | nested _ c => c.hasNoResult
  | constructor _ | destructor _ | conversion _ => true
  | _ => false

/-- Whether the type of a function with this name begins with the type of the result. -/
def hasResult : Component → Bool
  | nested _ c => c.hasResult
  | template c _ => !c.hasNoResult
  | qualifiedThis _ c | lvalueThis c | rvalueThis c | transactionSafe c | noexcept c _
  | throwing c _ => c.hasResult
  | _ => false

/-- A function without the type of its result, as it is written around what is inside it. -/
def withoutResult : Component → Component
  | typed entity (function _ parameters) => typed entity (function none parameters)
  | c => c

end Component

end PathSafety.Name.Mangled
