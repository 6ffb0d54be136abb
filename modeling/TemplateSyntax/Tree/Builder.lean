import TemplateSyntax.Expr.Parse
import TemplateSyntax.Tree.Part
import TemplateSyntax.Tree.Program
import TemplateSyntax.Tree.Shape

/-!
# Building a tree from tokens

The builder takes one token after the other. Nodes whose closing tag is still to come lie on a stack, the innermost
first; a finished node goes to the innermost open node, or to the program when none is open. The condition of an
`<#elseif>` lies on the stack as a chained node, above the condition it continues, and is closed with it.

A directive that is complete in one tag may still be followed by a closing tag of its own, so its node is kept pending
until the next token is known.

A tag at the wrong place or of the wrong form is reported and left out. Only an error inside an expression ends the
building of a template.
-/

namespace TemplateSyntax

open Markup (Token)

/-! ### Tags and open nodes -/

/-- The parameters of a token as an expression. Those of text and comments are not looked at. -/
def Kind.readParams (kind : Kind) (t : Token) : Except ExprError (Option Expr) :=
  match kind, t.params with
  | .text, _ | .comment, _ | _, none => .ok none
  | _, some p => Expr.parseAt p.text p.span.start

namespace Node

/-- The opening tag of the node, as messages name it. -/
def openLabel (n : Node) : String :=
  match n.head with
  | .macroCall name _ => "<@" ++ name ++ ">"
  | _ => "<#" ++ n.kind.directiveName ++ ">"

def closeLabel (n : Node) : String :=
  match n.head with
  | .macroCall name _ => "</@" ++ name ++ ">"
  | _ => "</#" ++ n.kind.directiveName ++ ">"

/-- A closing tag of the given kind and name ends the node. The closing tag of a macro call may leave out the name. -/
def closedBy (kind : Kind) (tag : Option String) (n : Node) : Bool :=
  n.kind == kind &&
    match n.head, tag with
    | .macroCall name _, some given => given.isEmpty || given == name
    | _, _ => true

/-- An `<#attempt>` without its `<#recover>`. -/
def lacksRecover (n : Node) : Bool :=
  n.kind == .attempt && n.branch.isNone

end Node

structure OpenNode where
  node : Node
  /-- The node is the condition of an `<#elseif>`. -/
  chained : Bool
deriving Inhabited

structure Builder where
  /-- The length of the template in bytes. -/
  stop : Nat
  body : List Node
  errors : List StructuralError
  stack : List OpenNode
  pending : Option Node
deriving Inhabited

namespace Builder

def new (stop : Nat) : Builder :=
  ⟨stop, [], [], [], none⟩

/-! ### Finished nodes -/

def report (fault : StructuralFault) (span : Span) (b : Builder) : Builder :=
  { b with errors := b.errors ++ [⟨fault, span⟩] }

/-- A finished node goes to where content is now received. -/
def add (n : Node) (b : Builder) : Builder :=
  match b.stack with
  | [] => { b with body := b.body ++ [n] }
  | top :: below =>
    match top.node.add? n with
    | some node => { b with stack := { top with node } :: below }
    | none => b

/-- A chained condition becomes the alternative of the condition below it, any other node is content. -/
def attach (o : OpenNode) (b : Builder) : Builder :=
  match o.chained, b.stack with
  | true, parent :: below =>
    if parent.node.kind = .condition then
      { b with stack := { parent with node := { parent.node with branch := some [o.node] } } :: below }
    else b.add o.node
  | _, _ => b.add o.node

/-- The pending node is finished without a closing tag. -/
def settle (b : Builder) : Builder :=
  match b.pending with
  | none => b
  | some n => { b with pending := none }.add n

/-- The pending node ends with the closing tag `t`, if that is its own. -/
def absorb? (t : Token) (b : Builder) : Option Builder :=
  match b.pending with
  | none => none
  | some n =>
    if t.closing && Kind.ofToken? t == some n.kind then
      some ({ b with pending := none }.add (n.endAt t.span.stop))
    else none

/-! ### Closing -/

/-- The innermost open node is finished: its last part ends at `partStop` and the node itself at `stop`. -/
def release (partStop stop : Nat) (b : Builder) : Builder :=
  match b.stack with
  | [] => b
  | top :: below => { b with stack := below }.attach { top with node := (top.node.endPart partStop).endAt stop }

/-- How many chained conditions lie above the innermost node that has a closing tag of its own. -/
def chainLength (b : Builder) : Nat :=
  (b.stack.takeWhile OpenNode.chained).length

/-- A closing tag ends the chained conditions at its start, and the node that they continue at its end. -/
def closeTop (span : Span) (b : Builder) : Builder :=
  let unchained := Nat.repeat (release span.start span.start) b.chainLength b
  let closed := unchained.release span.start span.stop
  match unchained.stack with
  | [] => closed
  | top :: _ =>
    if top.node.lacksRecover then closed.report .missingRecover (top.node.endAt span.stop).span else closed

def close (kind : Kind) (t : Token) (b : Builder) : Except StructuralFault Builder :=
  match b.stack with
  | [] => .error (.strayClose t.label)
  | top :: _ =>
    if top.node.closedBy kind t.tag then .ok (b.closeTop t.span)
    else .error (.mismatchedClose t.label top.node.closeLabel)

/-! ### Opening -/

/-- A tag that continues the innermost open node. -/
def continueTop (kind : Kind) (t : Token) (params : Option Expr) (b : Builder) : Except StructuralFault Builder :=
  match b.stack with
  | [] => .error (.misplaced t.label)
  | top :: below =>
    match kind, top.node.head, params with
    | .elseIf, .condition _, some test =>
      if top.node.branch.isSome then .error .elseIfAfterElse
      else .ok { b with stack := ⟨⟨.condition test, t.span, some [], none⟩, true⟩ :: b.stack }
    | _, _, _ =>
      (top.node.beginPart kind t params).map fun node => { b with stack := { top with node } :: below }

/-- A new node is opened, waits for a closing tag that may follow, or is finished at once. -/
def place (selfClosing : Bool) (n : Node) (b : Builder) : Builder :=
  if n.body.isSome && !selfClosing then { b with stack := ⟨n, false⟩ :: b.stack }
  else
    match n.head with
    | .single _ _ => if selfClosing then b.add n else { b with pending := some n }
    | _ => b.add n

/-- The innermost open node is a switch in which no case has begun. -/
def awaitsCase (b : Builder) : Bool :=
  match b.stack with
  | [] => false
  | top :: _ => top.node.awaitsCase

/-- An opening tag, or a token that is no tag. Between a switch and its first case blank text is left out, and nothing
else may stand there. -/
def accept (kind : Kind) (t : Token) (params : Option Expr) (b : Builder) : Except StructuralFault Builder :=
  match kind.paramRule, params with
  | .required, none => .error (.missingParams t.label)
  | .forbidden, some _ => .error (.unexpectedParams t.label)
  | _, _ =>
    if b.awaitsCase && kind != .case && kind != .default then
      if kind == .text && t.raw.toList.all Text.isBlank then .ok b else .error .contentBeforeCase
    else if kind.isContinuation then b.continueTop kind t params
    else (Node.ofTag kind t params).map fun n => b.place t.selfClosing n

/-! ### Tokens -/

/-- A token that cannot be taken is reported, and changes nothing else. -/
def orReport (span : Span) (b : Builder) : Except StructuralFault Builder → Builder
  | .ok b' => b'
  | .error fault => b.report fault span

/-- The builder after one more token. If the parameters are no expression, only the pending node is settled. -/
def push (t : Token) (b : Builder) : Option ExprError × Builder :=
  match b.absorb? t with
  | some b' => (none, b')
  | none =>
    let b := b.settle
    match Kind.ofToken? t with
    | none => (none, b.report (.unsupported t.label) t.span)
    | some kind =>
      if t.closing then (none, b.orReport t.span (b.close kind t))
      else
        match kind.readParams t with
        | .error e => (some e, b)
        | .ok params => (none, b.orReport t.span (b.accept kind t params))

/-- The builder after the tokens, or after those up to the first error in an expression. -/
def pushAll : List Token → Builder → Option ExprError × Builder
  | [], b => (none, b)
  | t :: ts, b =>
    match b.push t with
    | (none, b') => pushAll ts b'
    | (some e, b') => (some e, b')

theorem pushAll_append (ts us : List Token) (b : Builder) :
    b.pushAll (ts ++ us) =
      match b.pushAll ts with
      | (none, b') => b'.pushAll us
      | (some e, b') => (some e, b') := by
  induction ts generalizing b with
  | nil => rfl
  | cons t ts ih =>
    simp only [List.cons_append, pushAll]
    split
    · exact ih _
    · rfl

/-- The innermost open node that has a closing tag of its own is reported as unclosed. -/
def reportUnclosed (b : Builder) : Builder :=
  match b.stack.find? fun o => !o.chained with
  | none => b
  | some o => b.report (.unclosed o.node.openLabel) o.node.span

/-- At the end of the template all open nodes end with it. -/
def finish (b : Builder) : Program :=
  let b := b.settle.reportUnclosed
  let closed := Nat.repeat (release b.stop b.stop) b.stack.length b
  ⟨b.stop, closed.body, closed.errors⟩

end Builder

/-- The program of a template of `stop` bytes with the given tokens. -/
def Program.ofTokens (tokens : List Token) (stop : Nat) : Except ExprError Program :=
  match (Builder.new stop).pushAll tokens with
  | (none, b) => .ok b.finish
  | (some e, _) => .error e

end TemplateSyntax
