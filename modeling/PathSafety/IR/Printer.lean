import PathSafety.IR.RealText
import PathSafety.IR.Typing
import PathSafety.Text.Quoted

/-!
# The text of operands and instructions

How instructions read in messages.
-/

namespace PathSafety.IR

/-- The keyword of an arithmetic operation. -/
def arithKeyword : ArithOp → String
  | .add => "add" | .sub => "sub" | .mul => "mul" | .udiv => "udiv" | .sdiv => "sdiv"
  | .urem => "urem" | .srem => "srem" | .and => "and" | .or => "or" | .xor => "xor"
  | .shl => "shl" | .lshr => "lshr" | .ashr => "ashr"

/-- The keyword of a comparison predicate. -/
def IntPredicate.keyword : IntPredicate → String
  | eq => "eq" | ne => "ne" | ugt => "ugt" | uge => "uge" | ult => "ult" | ule => "ule"
  | sgt => "sgt" | sge => "sge" | slt => "slt" | sle => "sle"

/-- The keyword of a conversion. -/
def CastOp.keyword : CastOp → String
  | trunc => "trunc" | zext => "zext" | sext => "sext" | bitcast => "bitcast"
  | ptrtoint => "ptrtoint" | inttoptr => "inttoptr" | addrspacecast => "addrspacecast"

/-- The keyword of an instruction without a meaning here. -/
def Unmodeled.keyword : Unmodeled → String
  | floatArith op .. => op
  | fneg _ => "fneg"
  | fcmp .. => "fcmp"
  | floatCast op .. => op
  | extractValue .. => "extractvalue"
  | insertValue .. => "insertvalue"
  | extractElement .. => "extractelement"
  | insertElement .. => "insertelement"
  | atomicUpdate .. => "atomicrmw"
  | fence _ => "fence"

/-- Bytes between quotes; quotes, backslashes and bytes without a visible form are escaped. -/
def quoteBytes (bs : List UInt8) : String :=
  let escape (b : UInt8) : List Char :=
    let n := b.toNat
    if 32 ≤ n && n < 127 && n != 34 && n != 92 then [Char.ofNat n] else '\\' :: Text.hexDigits 2 n
  "c\"" ++ String.ofList (bs.flatMap escape) ++ "\""

namespace Scope

/-- How zero of a type is written. -/
def nullText : Ty → String
  | .int _ => "0"
  | .ptr _ | .ptrTo _ _ => "null"
  | .half | .float | .double => "0.0"
  | _ => "zeroinitializer"

mutual

/-- How an operand is referred to. -/
def reference (s : Scope) : Operand → String
  | .register n => "%" ++ quoteName n
  | .global n => "@" ++ quoteName n
  | .constant t v => constantText s t v
  | .assembly _ code constraint => s!"asm  \"{code}\", \"{constraint}\""

/-- How the value of a constant is written. -/
def constantText (s : Scope) (t : Ty) : ConstantValue → String
  | .null => nullText t
  | .undef => "undef"
  | .int n => toString n
  | .real bits => match t with
    | .half => realText (some .half) bits
    | .float => realText (some .single) bits
    | _ => realText none bits
  | .bytes bs => quoteBytes bs
  | .elements es =>
    let body := ", ".intercalate (typedAll s es)
    match t with
    | .vector _ _ => "<" ++ body ++ ">"
    | .struct _ true => "<\x7b" ++ body ++ "\x7d>"
    | .struct _ false | .named _ => "\x7b" ++ body ++ "\x7d"
    | _ => "[" ++ body ++ "]"
  | .expression text => text

/-- How operands are written with their types. -/
def typedAll (s : Scope) : List Operand → List String
  | [] => []
  | o :: os => ((s.operandType o).text ++ " " ++ reference s o) :: typedAll s os

end

/-- How an operand is written with its type. -/
def typed (s : Scope) (o : Operand) : String := (s.operandType o).text ++ " " ++ s.reference o

/-- A list with commas. -/
def commas (xs : List String) : String := ", ".intercalate xs

/-- How a block is referred to. -/
def labelText (b : String) : String := "label %" ++ quoteName b

/-- Words separated by blanks. -/
def words (xs : List String) : String := " ".intercalate xs

/-- The text of an instruction without its result. -/
def opText (s : Scope) (op : Op) : String :=
  let binary (key : String) (flags : List String) (operands : List Operand) : String :=
    let t := match operands with
      | a :: _ => (s.operandType a).text
      | [] => ""
    words ((key :: flags) ++ [t, commas (operands.map s.reference)])
  let cast (key : String) (v : Operand) (target : Ty) : String :=
    words [key, s.typed v, "to", target.text]
  match op with
  | .arith o flags a b => binary (arithKeyword o) flags [a, b]
  | .icmp p a b => binary "icmp" [p.keyword] [a, b]
  | .cast c v target => cast c.keyword v target
  | .alloca t none => "alloca " ++ t.text
  | .alloca t (some n) => "alloca " ++ t.text ++ ", " ++ s.typed n
  | .load p t => "load " ++ (s.accessType p t).text ++ ", " ++ s.typed p
  | .store v p => "store " ++ s.typed v ++ ", " ++ s.typed p
  | .gep inbounds p t is =>
    "getelementptr " ++ (if inbounds then "inbounds " else "") ++
      commas ((s.accessType p t).text :: s.typed p :: is.map s.typed)
  | .select c a b => "select  " ++ commas [s.typed c, s.typed a, s.typed b]
  | .phi t incoming =>
    let arm (v : Operand × String) : String := s!"[{s.reference v.1}, %{quoteName v.2}]"
    "phi  " ++ t.text ++ " " ++ commas (incoming.map arm)
  | .call callee args =>
    let t := match s.calleeType callee with
      | .fn ret params true => (Ty.fn ret params true).text
      | .fn ret _ false => ret.text
      | t => t.text
    s!"call {t} {s.reference callee}({commas (args.map s.typed)})"
  | .br b => "br " ++ labelText b
  | .condBr c t f => "br " ++ commas [s.typed c, labelText t, labelText f]
  | .switch v d cases =>
    let arm (c : Operand × String) : String := s.typed c.1 ++ ", " ++ labelText c.2
    "switch " ++ s.typed v ++ ", " ++ labelText d ++ " [" ++ words (cases.map arm) ++ "]"
  | .ret none => "ret void"
  | .ret (some v) => "ret " ++ s.typed v
  | .unreachable => "unreachable"
  | .unmodeled u => match u with
    | .floatArith key flags a b => binary key flags [a, b]
    | .fneg a => binary "fneg" [] [a]
    | .fcmp p a b => binary "fcmp" [p] [a, b]
    | .floatCast key v target => cast key v target
    | .extractValue a path => "extractvalue " ++ commas (s.typed a :: path.map toString)
    | .insertValue a v path => "insertvalue " ++ commas (s.typed a :: s.typed v :: path.map toString)
    | .extractElement a i => "extractelement " ++ commas [s.typed a, s.typed i]
    | .insertElement a v i => "insertelement " ++ commas [s.typed a, s.typed v, s.typed i]
    | .atomicUpdate key p v ordering =>
      words ["atomicrmw", key, s.typed p ++ ",", s.typed v, ordering]
    | .fence ordering => "fence " ++ ordering

/-- The text of an instruction. -/
def instrText (s : Scope) (i : Instr) : String :=
  let result := match s.resultType i.op with
    | .void => ""
    | _ => "%" ++ quoteName i.name ++ " = "
  String.ofList (Text.trimRight (result ++ s.opText i.op).toList)

end Scope

end PathSafety.IR
