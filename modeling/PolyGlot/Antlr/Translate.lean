import PolyGlot.IR.Text

set_option autoImplicit false

/-! # Translation of parse trees

`TranslateNode` with its greedy five-slot automaton `ExtractOneIR`. A stack is
the list of its entries, top first; a translation takes the value of the global
`id_counter` and gives back the value it leaves.
-/
namespace PolyGlot

/-- The fields of `PolyGlotRuleContext` the program sets or reads. A rule index
counts the rules of a grammar, far below `kUnknown`. -/
structure RuleContext where
  ruleIndex : Fin kUnknown
  isStringLiteral : Bool := false
  isFloatLiteral : Bool := false
  isIntLiteral : Bool := false
  dataType : DataType := .kDataDefault
  scopeType : ScopeType := .kScopeDefault
  deriving DecidableEq

inductive ParseTree
  | terminal (text : Str)
  | rule (ctx : RuleContext) (children : List ParseTree)

def eofText : Str := ['<', 'E', 'O', 'F', '>']

mutual
def ParseTree.getText : ParseTree → Str
  | .terminal text => text
  | .rule _ children => getTexts children
def getTexts : List ParseTree → Str
  | [] => []
  | c :: cs => c.getText ++ getTexts cs
end

inductive IM
  | str (s : Str)
  | ir (t : IR)
  deriving DecidableEq

structure OneIR where
  opPrefix : Option Str := none
  opMiddle : Option Str := none
  opSuffix : Option Str := none
  left : Option IR := none
  right : Option IR := none

/-- `ExtractOneIR`, continued from the slots filled so far. -/
def extractOneIR (o : OneIR) : List IM → OneIR × List IM
  | [] => (o, [])
  | .str s :: stk =>
    if o.left.isNone && o.opPrefix.isNone then extractOneIR { o with opPrefix := some s } stk
    else if o.opMiddle.isNone && o.right.isNone then extractOneIR { o with opMiddle := some s } stk
    else if o.opSuffix.isNone then extractOneIR { o with opSuffix := some s } stk
    else (o, .str s :: stk)
  | .ir t :: stk =>
    if o.left.isNone && o.opMiddle.isNone then extractOneIR { o with left := some t } stk
    else if o.right.isNone && o.opSuffix.isNone then extractOneIR { o with right := some t } stk
    else (o, .ir t :: stk)

section
variable (uninit : StatementID → ScopeID)

def OneIR.toIR (type : IRType) (o : OneIR) (id : StatementID) : IR :=
  IR.ofOperator uninit type ⟨o.opPrefix.getD [], o.opMiddle.getD [], o.opSuffix.getD []⟩
    (o.left.getD .nil) (o.right.getD .nil) id

/-- One turn of the fold loop: what `ExtractOneIR` took off the stack becomes a
node, typed by the rule when it took everything, and goes back on top. -/
def foldStep (type : IRType) (stk : List IM) (id : StatementID) : List IM :=
  let e := extractOneIR {} stk
  .ir (e.1.toIR uninit (if e.2 = [] then type else kUnknown) id) :: e.2

/-- The `do … while (stk.size() > 1)` loop; `none` when the fuel runs out. -/
def foldLoop (type : IRType) : ℕ → List IM → StatementID → Option (List IM × StatementID)
  | 0, _, _ => none
  | fuel + 1, stk, id =>
    let stk' := foldStep uninit type stk id
    if stk'.length > 1 then foldLoop type fuel stk' (id + 1) else some (stk', id + 1)

def decorate (ctx : RuleContext) (t : IR) : IR :=
  let t := t.setDataType ctx.dataType
  if ctx.scopeType ≠ .kScopeDefault then t.setScopeType ctx.scopeType else t

def foldItems (ctx : RuleContext) (stk : List IM) (id : StatementID) :
    Except Fault (Option IR × StatementID) :=
  match foldLoop uninit ctx.ruleIndex stk.length stk id with
  | none => .error .outOfFuel
  | some ([.ir t], id') => .ok (some (decorate ctx t), id')
  | some _ => .error .assertion

mutual
def translateNode : ParseTree → StatementID → Except Fault (Option IR × StatementID)
  | .terminal _, _ => .error .assertion
  | .rule ctx children, id =>
    if ctx.isStringLiteral then
      .ok (some (decorate ctx (IR.ofData uninit ctx.ruleIndex (.string (getTexts children)) id)), id + 1)
    else if ctx.isIntLiteral then
      match stoi (getTexts children) with
      | none => .error .exception
      | some i => .ok (some (decorate ctx (IR.ofData uninit ctx.ruleIndex (.int i) id)), id + 1)
    else if children.isEmpty then .ok (none, id)
    else
      match translateChildren children id with
      | .error f => .error f
      | .ok (stk, id') =>
        if stk.isEmpty then
          if getTexts children = eofText ∨ getTexts children = [] then .ok (none, id')
          else .error .assertion
        else foldItems uninit ctx stk id'
/-- The loop over the children; the two stacks leave the first child on top. -/
def translateChildren : List ParseTree → StatementID → Except Fault (List IM × StatementID)
  | [], id => .ok ([], id)
  | .terminal text :: cs, id =>
    match translateChildren cs id with
    | .error f => .error f
    | .ok (stk, id') => .ok (if text = eofText then stk else .str text :: stk, id')
  | .rule ctx gcs :: cs, id =>
    match translateNode (.rule ctx gcs) id with
    | .error f => .error f
    | .ok (t, id') =>
      match translateChildren cs id' with
      | .error f => .error f
      | .ok (stk, id'') => .ok (match t with | none => stk | some t => .ir t :: stk, id'')
end

end

end PolyGlot
