import TemplateSyntax.Tree.Error
import TemplateSyntax.Tree.Node

/-!
# Parts of an open node

While a node is open its content grows at one place: at the end of its body, or, once a tag such as `<#else>` or
`<#case>` has begun a new part, at the end of that part. The part of a condition or switch is a node of its own, with a
span that ends where the next part begins; the part of a list or attempt is just the branch.
-/

namespace TemplateSyntax.Node

/-- The list with its last item changed. -/
def changeLast (f : Node → Node) : List Node → List Node
  | [] => []
  | [n] => [f n]
  | n :: m :: ns => n :: changeLast f (m :: ns)

/-- An `<#else>` of a condition, or a case. -/
def isPart (n : Node) : Bool :=
  match n.head with
  | .otherwise | .case _ | .default => true
  | _ => false

/-- The part that a tag with the given head begins, without content. -/
def part (head : Head) (span : Span) : Node :=
  ⟨head, span, some [], none⟩

/-! ### Content -/

def appendToBody (child n : Node) : Node :=
  { n with body := n.body.map (· ++ [child]) }

/-- `child` goes into the last of the parts. -/
def addToPart? (child : Node) (parts : List Node) : Option (List Node) :=
  match parts.getLast? with
  | some last => if last.isPart then some (changeLast (appendToBody child) parts) else none
  | none => none

/-- The node with `child` as the last of its content. A node that has no place for content now takes none. -/
def add? (n child : Node) : Option Node :=
  match n.head, n.branch with
  | .condition _, some alternative => (addToPart? child alternative).map fun ns => { n with branch := some ns }
  | _, some fallback => some { n with branch := some (fallback ++ [child]) }
  | .switch _, none => (n.body.bind (addToPart? child)).map fun ns => { n with body := some ns }
  | _, none => n.body.map fun ns => { n with body := some (ns ++ [child]) }

/-- A switch in which no case has begun. -/
def awaitsCase (n : Node) : Bool :=
  match n.head with
  | .switch _ => (n.body.getD []).isEmpty
  | _ => false

/-! ### Parts -/

/-- The node with its last part ended at `stop`. -/
def endPart (stop : Nat) (n : Node) : Node :=
  let ended := changeLast fun part => if part.isPart then part.endAt stop else part
  match n.head with
  | .condition _ => { n with branch := n.branch.map ended }
  | .switch _ => { n with body := n.body.map ended }
  | _ => n

/-- A switch with one more case, which ends the case before it. -/
def beginCase (n case : Node) : Node :=
  let n := n.endPart case.span.start
  { n with body := n.body.map (· ++ [case]) }

/-- The node after a tag of the given kind has begun a new part of it. -/
def beginPart (kind : Kind) (t : Markup.Token) (params : Option Expr) (n : Node) : Except StructuralFault Node :=
  match kind, n.head, params with
  | .otherwise, .condition _, _ =>
    if n.branch.isSome then .error (.duplicateElse .condition)
    else .ok { n with branch := some [part .otherwise t.span] }
  | .otherwise, .list _, _ =>
    if n.branch.isSome then .error (.duplicateElse .list) else .ok { n with branch := some [] }
  | .recover, .attempt, _ => if n.branch.isSome then .error .duplicateRecover else .ok { n with branch := some [] }
  | .case, .switch _, some value => .ok (n.beginCase (part (.case value) t.span))
  | .default, .switch _, _ =>
    if n.children.any fun c => c.kind == .default then .error .duplicateDefault
    else .ok (n.beginCase (part .default t.span))
  | _, _, _ => .error (.misplaced t.label)

@[simp] theorem changeLast_append_singleton (f : Node → Node) (ns : List Node) (n : Node) :
    changeLast f (ns ++ [n]) = ns ++ [f n] := by
  induction ns with
  | nil => rfl
  | cons m ns ih =>
    cases ns with
    | nil => rfl
    | cons l ns => simpa [changeLast] using ih

@[simp] theorem endPart_head (stop : Nat) (n : Node) : (n.endPart stop).head = n.head := by
  unfold endPart; split <;> rfl

theorem add?_head {n child m : Node} (h : n.add? child = some m) : m.head = n.head := by
  unfold add? at h
  split at h
  · obtain ⟨ns, -, rfl⟩ := Option.map_eq_some_iff.mp h; rfl
  · cases h; rfl
  · obtain ⟨ns, -, rfl⟩ := Option.map_eq_some_iff.mp h; rfl
  · obtain ⟨ns, -, rfl⟩ := Option.map_eq_some_iff.mp h; rfl

end TemplateSyntax.Node
