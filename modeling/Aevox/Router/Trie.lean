import Aevox.Http.Request
import Aevox.Http.Response
import Aevox.Router.Pattern

/-!
# The router's trie

One node for each registered shape and for each of its prefixes. A node has any number of static
children, told apart by their text, and at most one parameter child and one wildcard child, so a
node is named by the labels on the way to it: `nodeAt`. Registration creates the missing nodes on
its way and stores the handler at the end; dispatch walks down one node per segment, taking the
first child that matches, and never back up.

`η` stands for the erased handlers, which are never empty: an empty `std::function` is `none`.
-/

namespace Aevox

/-- `TrieNode`. Its kind is the field of its parent it sits in. -/
structure TrieNode (η : Type) where
  /-- The literal of a static node, the parameter's name otherwise. -/
  segment : Bytes := []
  paramType : ParamType := .none
  handlers : Fin kMethodCount → Option η := fun _ ↦ none
  methodMask : BitVec 8 := 0
  staticChildren : List (TrieNode η) := []
  paramChild : Option (TrieNode η) := none
  wildcardChild : Option (TrieNode η) := none

namespace TrieNode

variable {η : Type}

/-! ## Registration -/

/-- The node a segment creates. -/
def fresh : Segment → TrieNode η
  | .static literal => { segment := literal }
  | .param name paramType => { segment := name, paramType := paramType }
  | .wildcard name => { segment := name }

/-- The first static child with this literal, created at the end if there is none, is changed. -/
def updateStatic (literal : Bytes) (f : TrieNode η → TrieNode η) :
    List (TrieNode η) → List (TrieNode η)
  | [] => [f (fresh (.static literal))]
  | child :: children =>
    if child.segment = literal then f child :: children
    else child :: updateStatic literal f children

/-- `ensure_child`, and what is done to the child it returns. An existing parameter or wildcard
child keeps its own name and type. -/
def updateChild (seg : Segment) (f : TrieNode η → TrieNode η) (node : TrieNode η) : TrieNode η :=
  match seg with
  | .static literal => { node with staticChildren := updateStatic literal f node.staticChildren }
  | .param _ _ => { node with paramChild := some (f (node.paramChild.getD (fresh seg))) }
  | .wildcard _ => { node with wildcardChild := some (f (node.wildcardChild.getD (fresh seg))) }

/-- What `f` does at the node `segs` lead to, which is created if necessary. -/
def updateAt (f : TrieNode η → TrieNode η) : List Segment → TrieNode η → TrieNode η
  | [], node => f node
  | seg :: segs, node => node.updateChild seg (updateAt f segs)

/-- The handler for a method is set, with its bit of the mask; an empty function like any other. -/
def setHandler (method : Fin kMethodCount) (handler : Option η) (node : TrieNode η) : TrieNode η :=
  { node with
    handlers := Function.update node.handlers method handler
    methodMask := node.methodMask ||| (1#8 <<< method.val) }

/-- `insert` -/
def insert (node : TrieNode η) (segs : List Segment) (method : Fin kMethodCount)
    (handler : Option η) : TrieNode η :=
  updateAt (setHandler method handler) segs node

/-- What `group` does to the trie: it makes sure the prefix has a node. -/
def group (node : TrieNode η) (segs : List Segment) : TrieNode η := updateAt id segs node

/-! ## Dispatch -/

/-- Where the walk has arrived. -/
structure Arrival (η : Type) where
  node : TrieNode η
  captured : List (Bytes × Bytes)
  wildcardMatched : Bool

/-- The walk over the segments of a path; `none` when no child matches. -/
def walk (node : TrieNode η) (captured : List (Bytes × Bytes)) :
    List (Bytes × Bytes) → Option (Arrival η)
  | [] => some ⟨node, captured, false⟩
  | (seg, rest) :: segs =>
    match node.staticChildren.find? fun child ↦ child.segment = seg with
    | some child => child.walk captured segs
    | none =>
      match node.paramChild with
      | some child => child.walk (captured ++ [(child.segment, seg)]) segs
      | none =>
        match node.wildcardChild with
        | some child => some ⟨child, captured ++ [(child.segment, rest)], true⟩
        | none => none

/-- A wildcard child that has not been consumed captures nothing. -/
def Arrival.advance (a : Arrival η) : Arrival η :=
  if a.wildcardMatched then a
  else
    match a.node.wildcardChild with
    | some child => ⟨child, a.captured ++ [(child.segment, [])], false⟩
    | none => a

end TrieNode

/-- `kMethodNames` -/
def kMethodNames : List Bytes :=
  [ascii "GET", ascii "POST", ascii "PUT", ascii "PATCH", ascii "DELETE", ascii "HEAD",
    ascii "OPTIONS"]

/-- `build_allow_header` -/
def buildAllowHeader (methodMask : BitVec 8) : Bytes :=
  ((List.range kMethodCount).filter fun i ↦ methodMask.getLsbD i).foldl
    (fun result i ↦ (if result = [] then result else result ++ ascii ", ") ++
      kMethodNames.getD i []) []

/-- What `Router::dispatch` does with a request. -/
inductive Dispatch (η : Type) where
  /-- It injects the captured parameters and awaits the handler. -/
  | invoke (handler : η) (captured : List (Bytes × Bytes))
  /-- It answers on its own. -/
  | respond (response : Response)

/-- `Router`; without a root when it is a group's or has been moved from. -/
structure Router (η : Type) where
  root : Option (TrieNode η) := some {}

namespace Router

variable {η : Type}

/-- What dispatch does at the node it has arrived at. -/
def conclude (method : Fin kMethodCount) (a : TrieNode.Arrival η) : Dispatch η :=
  match a.node.handlers method with
  | some handler => .invoke handler a.captured
  | none =>
    if a.node.methodMask ≠ 0 then
      .respond ((Response.methodNotAllowed []).header (ascii "Allow")
        (buildAllowHeader a.node.methodMask))
    else .respond (.notFound (ascii "404 Not Found"))

/-- `dispatch`, up to the invocation of the handler. -/
def dispatch (router : Router η) (method : HttpMethod) (path : Bytes) : Dispatch η :=
  match router.root with
  | none => .respond (.notFound (ascii "404 Not Found"))
  | some root =>
    if h : method.index < kMethodCount then
      match root.walk [] (splitPath path) with
      | none => .respond (.notFound (ascii "404 Not Found"))
      | some arrival => conclude ⟨method.index, h⟩ arrival.advance
    else .respond (.badRequest (ascii "Unknown HTTP method"))

end Router

/-! ## Nodes by their labels -/

namespace TrieNode

variable {η : Type}

/-- The child a label names. -/
def child (node : TrieNode η) : Label → Option (TrieNode η)
  | .static literal => node.staticChildren.find? fun c ↦ c.segment = literal
  | .param => node.paramChild
  | .wildcard => node.wildcardChild

/-- The node a word of labels leads to. -/
def nodeAt : List Label → TrieNode η → Option (TrieNode η)
  | [], node => some node
  | l :: word, node => (node.child l).bind (nodeAt word)

@[simp] theorem nodeAt_nil (node : TrieNode η) : nodeAt [] node = some node := rfl

theorem nodeAt_cons (l : Label) (word : List Label) (node : TrieNode η) :
    nodeAt (l :: word) node = (node.child l).bind (nodeAt word) := rfl

theorem nodeAt_append (v w : List Label) : ∀ node : TrieNode η,
    nodeAt (v ++ w) node = (nodeAt v node).bind (nodeAt w) := by
  induction v with
  | nil => exact fun node ↦ rfl
  | cons l v ih =>
    intro node
    rw [List.cons_append, nodeAt_cons, nodeAt_cons]
    rcases node.child l with _ | c
    · rfl
    · exact ih c

theorem nodeAt_concat (v : List Label) (l : Label) (node : TrieNode η) :
    nodeAt (v ++ [l]) node = (nodeAt v node).bind (·.child l) := by
  rw [nodeAt_append]
  rcases nodeAt v node with _ | c
  · rfl
  · rcases hc : c.child l with _ | d <;> simp [nodeAt_cons, hc]

theorem child_fresh (seg : Segment) (l : Label) : (fresh seg : TrieNode η).child l = none := by
  rcases seg with _ | _ | _ <;> rcases l with _ | _ | _ <;> rfl

end TrieNode

end Aevox
