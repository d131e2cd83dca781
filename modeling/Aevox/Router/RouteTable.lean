import Aevox.Router.Trie

/-!
# The trie as a table of shapes

What a trie knows, read off without walking it: which words lead to a node (`inside`), and which
handler and which bit of the mask a word has for a method (`handlerAt`, `bitAt`). Registration is
understood in these terms alone. Whatever was registered before, adding a route makes its shape and
all prefixes of it lead somewhere and changes what it is about at its own shape only
(`inside_updateAt`, `readAt_updateAt`). By induction over the registrations, the trie of a list of
routes is inside exactly the prefixes of their shapes, a shape has the function registered for it
last, and its mask shows all methods that have ever been registered for it (`inside_build`,
`handlerAt_build`, `bitAt_build`). The last two differ where the last function is empty.
-/

namespace Aevox

namespace TrieNode

variable {η : Type}

/-- Whether a word leads to a node. -/
def inside (node : TrieNode η) (word : List Label) : Bool := (nodeAt word node).isSome

/-- The handler a word has for a method. -/
def handlerAt (node : TrieNode η) (word : List Label) (method : Fin kMethodCount) : Option η :=
  (nodeAt word node).bind fun n ↦ n.handlers method

theorem inside_of_prefix {node : TrieNode η} {u v : List Label} (h : u <+: v)
    (hv : node.inside v = true) : node.inside u = true := by
  obtain ⟨w, rfl⟩ := h
  rw [inside, nodeAt_append] at hv
  rw [inside]
  rcases hu : nodeAt u node with _ | n
  · rw [hu] at hv
    cases hv
  · rfl

theorem nodeAt_fresh_cons (seg : Segment) (l : Label) (word : List Label) :
    nodeAt (l :: word) (fresh seg : TrieNode η) = none := by
  rw [nodeAt_cons, child_fresh]
  rfl

/-- What a word's node says; `d` where there is none. -/
def readAt {α : Type} (read : TrieNode η → α) (d : α) (node : TrieNode η) (word : List Label) : α :=
  ((nodeAt word node).map read).getD d

theorem handlerAt_eq_readAt (node : TrieNode η) (word : List Label) (method : Fin kMethodCount) :
    node.handlerAt word method = node.readAt (fun n ↦ n.handlers method) none word := by
  rw [handlerAt, readAt]
  rcases nodeAt word node with _ | n <;> rfl

/-- A missing child says as much as a fresh one. -/
theorem readAt_getD_fresh {α : Type} {read : TrieNode η → α} {d : α}
    (hd : ∀ seg, read (fresh seg) = d) (c : Option (TrieNode η)) (seg : Segment)
    (word : List Label) :
    (c.getD (fresh seg)).readAt read d word = ((c.bind (nodeAt word)).map read).getD d := by
  rcases c with _ | c
  · rcases word with _ | ⟨l, word⟩
    · exact hd seg
    · rw [Option.getD_none, readAt, nodeAt_fresh_cons]
      rfl
  · rfl

theorem inside_getD_fresh (c : Option (TrieNode η)) (seg : Segment) (word : List Label) :
    (c.getD (fresh seg)).inside word = ((c.bind (nodeAt word)).isSome || decide (word = [])) := by
  rcases c with _ | c
  · rcases word with _ | ⟨l, word⟩
    · rfl
    · rw [Option.getD_none, inside, nodeAt_fresh_cons]
      rfl
  · rcases word with _ | ⟨l, word⟩
    · rfl
    · simp [inside]

/-! ## One update -/

/-- An update that leaves the text of a node alone. -/
def KeepsText (f : TrieNode η → TrieNode η) : Prop := ∀ n, (f n).segment = n.segment

/-- An update that leaves the children of a node alone. -/
def KeepsChildren (f : TrieNode η → TrieNode η) : Prop := ∀ n l, (f n).child l = n.child l

theorem find?_updateStatic {f : TrieNode η → TrieNode η} (hf : KeepsText f) (literal l : Bytes)
    (children : List (TrieNode η)) :
    (updateStatic literal f children).find? (fun c ↦ c.segment = l) =
      if l = literal then
        some (f ((children.find? fun c ↦ c.segment = literal).getD (fresh (.static literal))))
      else children.find? fun c ↦ c.segment = l := by
  induction children with
  | nil =>
    have hnew : (f (fresh (.static literal))).segment = literal := hf _
    rw [updateStatic]
    by_cases hl : l = literal
    · subst hl
      simp [hnew]
    · simp [hnew, hl, Ne.symm hl]
  | cons c cs ih =>
    rw [updateStatic]
    by_cases hc : c.segment = literal
    · have hfc : (f c).segment = literal := (hf c).trans hc
      rw [if_pos hc]
      by_cases hl : l = literal
      · subst hl
        simp [hfc, hc]
      · simp [hfc, hc, hl, Ne.symm hl]
    · rw [if_neg hc]
      by_cases hl : l = literal
      · subst hl
        simp only [List.find?_cons, hc, decide_false, ih, if_true]
      · simp only [List.find?_cons, ih, hl, if_false]

theorem child_updateChild {f : TrieNode η → TrieNode η} (hf : KeepsText f) (seg : Segment)
    (node : TrieNode η) (l : Label) :
    (node.updateChild seg f).child l =
      if l = seg.label then some (f ((node.child seg.label).getD (fresh seg)))
      else node.child l := by
  rcases seg with literal | ⟨name, type⟩ | name
  · rcases l with l | _ | _
    · rw [child, updateChild, find?_updateStatic hf]
      by_cases hl : l = literal <;> simp [hl, Segment.label, child]
    · rfl
    · rfl
  · rcases l with l | _ | _ <;> rfl
  · rcases l with l | _ | _ <;> rfl

theorem segment_updateChild (seg : Segment) (f : TrieNode η → TrieNode η) (node : TrieNode η) :
    (node.updateChild seg f).segment = node.segment := by
  rcases seg with _ | _ | _ <;> rfl

/-- What is read off a node does not depend on its children, and nothing is read off a new one. -/
structure Reads {α : Type} (read : TrieNode η → α) (d : α) : Prop where
  fresh : ∀ seg, read (fresh seg) = d
  updateChild : ∀ seg f node, read (updateChild seg f node) = read node

theorem reads_handlers (method : Fin kMethodCount) :
    Reads (fun n : TrieNode η ↦ n.handlers method) none where
  fresh seg := by rcases seg with _ | _ | _ <;> rfl
  updateChild seg f node := by rcases seg with _ | _ | _ <;> rfl

theorem reads_bit (i : ℕ) : Reads (fun n : TrieNode η ↦ n.methodMask.getLsbD i) false where
  fresh seg := by rcases seg with _ | _ | _ <;> simp [TrieNode.fresh]
  updateChild seg f node := by rcases seg with _ | _ | _ <;> rfl

theorem keepsText_updateAt {f : TrieNode η → TrieNode η} (hf : KeepsText f) (segs : List Segment) :
    KeepsText (updateAt f segs) := by
  rcases segs with _ | ⟨seg, segs⟩
  · exact hf
  · exact fun n ↦ segment_updateChild seg _ n

theorem inside_updateAt {f : TrieNode η → TrieNode η} (hf : KeepsText f) (hc : KeepsChildren f)
    {segs : List Segment} : ∀ {node : TrieNode η} {word : List Label},
    (updateAt f segs node).inside word = (node.inside word || decide (word <+: shape segs)) := by
  induction segs with
  | nil =>
    intro node word
    rcases word with _ | ⟨l, word⟩
    · rfl
    · rw [updateAt, inside, inside, nodeAt_cons, nodeAt_cons, hc node l]
      simp [shape]
  | cons seg segs ih =>
    intro node word
    rcases word with _ | ⟨l, word⟩
    · simp [inside]
    · rw [updateAt, inside, inside, nodeAt_cons, nodeAt_cons,
        child_updateChild (keepsText_updateAt hf segs)]
      by_cases hl : l = seg.label
      · -- a node created here has neither handlers nor children
        subst hl
        have hbelow : (updateAt f segs ((node.child seg.label).getD (fresh seg))).inside word = _ :=
          ih
        rw [inside_getD_fresh, inside] at hbelow
        rw [if_pos rfl, Option.bind_some, hbelow]
        rcases word with _ | ⟨k, word⟩ <;> simp
      · simp [hl]

/-- An update below changes what is read at its own word only. -/
theorem readAt_updateAt {α : Type} {read : TrieNode η → α} {d : α} (hread : Reads read d)
    {f : TrieNode η → TrieNode η} {g : α → α} (hf : KeepsText f) (hc : KeepsChildren f)
    (hg : ∀ n, read (f n) = g (read n)) {segs : List Segment} :
    ∀ {node : TrieNode η} {word : List Label}, (updateAt f segs node).readAt read d word =
      if word = shape segs then g (node.readAt read d word) else node.readAt read d word := by
  induction segs with
  | nil =>
    intro node word
    rcases word with _ | ⟨l, word⟩
    · exact hg node
    · rw [updateAt, readAt, readAt, nodeAt_cons, nodeAt_cons, hc node l]
      simp
  | cons seg segs ih =>
    intro node word
    rcases word with _ | ⟨l, word⟩
    · simp [readAt, updateAt, hread.updateChild]
    · rw [updateAt, readAt, readAt, nodeAt_cons, nodeAt_cons,
        child_updateChild (keepsText_updateAt hf segs)]
      by_cases hl : l = seg.label
      · subst hl
        have hbelow : (updateAt f segs ((node.child seg.label).getD (fresh seg))).readAt read d
            word = _ := ih
        rw [readAt_getD_fresh hread.fresh, readAt] at hbelow
        rw [if_pos rfl, Option.bind_some, hbelow]
        simp
      · simp [hl]

/-! ## Registration -/

theorem keepsText_setHandler (method : Fin kMethodCount) (handler : Option η) :
    KeepsText (setHandler method handler) := fun _ ↦ rfl

theorem keepsChildren_setHandler (method : Fin kMethodCount) (handler : Option η) :
    KeepsChildren (setHandler method handler) := fun _ l ↦ by rcases l with _ | _ | _ <;> rfl

theorem handlers_setHandler (method m : Fin kMethodCount) (handler : Option η) (n : TrieNode η) :
    (setHandler method handler n).handlers m = if m = method then handler else n.handlers m := by
  by_cases hm : m = method <;> simp [setHandler, hm]

theorem getLsbD_setHandler (method : Fin kMethodCount) (handler : Option η) (n : TrieNode η)
    (i : ℕ) : (setHandler method handler n).methodMask.getLsbD i =
      (n.methodMask.getLsbD i || decide (i = method.val)) := by
  have hbit : (1#8 <<< method.val).getLsbD i = decide (i = method.val) := by
    have hlt := method.isLt
    rw [BitVec.getLsbD_shiftLeft, BitVec.getLsbD_one]
    by_cases hi : i = method.val
    · subst hi
      have h8 : method.val < 8 := hlt.trans (by decide)
      simp [h8]
    · rcases Nat.lt_or_gt_of_ne hi with hlt' | hgt
      · simp [hlt', hi]
      · simp [hi, show i - method.val ≠ 0 by omega]
  rw [setHandler, BitVec.getLsbD_or, hbit]

/-- **A registration changes one handler.** -/
theorem handlerAt_insert (node : TrieNode η) (segs : List Segment) (method m : Fin kMethodCount)
    (handler : Option η) (word : List Label) :
    (node.insert segs method handler).handlerAt word m =
      if word = shape segs ∧ m = method then handler else node.handlerAt word m := by
  rw [handlerAt_eq_readAt, handlerAt_eq_readAt, insert,
    readAt_updateAt (reads_handlers m) (keepsText_setHandler method handler)
      (keepsChildren_setHandler method handler) (handlers_setHandler method m handler)]
  by_cases hw : word = shape segs <;> by_cases hm : m = method <;> simp [hw, hm]

/-- The bit of the mask a word has. -/
def bitAt (node : TrieNode η) (word : List Label) (i : ℕ) : Bool :=
  node.readAt (fun n ↦ n.methodMask.getLsbD i) false word

theorem bitAt_insert (node : TrieNode η) (segs : List Segment) (method : Fin kMethodCount)
    (handler : Option η) (word : List Label) (i : ℕ) :
    (node.insert segs method handler).bitAt word i =
      (node.bitAt word i || decide (word = shape segs ∧ i = method.val)) := by
  rw [bitAt, bitAt, insert, readAt_updateAt (g := (· || decide (i = method.val))) (reads_bit i)
    (keepsText_setHandler method handler) (keepsChildren_setHandler method handler)
    fun n ↦ getLsbD_setHandler method handler n i]
  by_cases hw : word = shape segs <;> simp [hw]

theorem inside_insert (node : TrieNode η) (segs : List Segment) (method : Fin kMethodCount)
    (handler : Option η) (word : List Label) :
    (node.insert segs method handler).inside word
      = (node.inside word || decide (word <+: shape segs)) :=
  inside_updateAt (keepsText_setHandler method handler) (keepsChildren_setHandler method handler)

/-- **A group registers nothing**; it only makes its prefix lead somewhere. -/
theorem readAt_group {α : Type} {read : TrieNode η → α} {d : α} (hread : Reads read d)
    (node : TrieNode η) (segs : List Segment) (word : List Label) :
    (node.group segs).readAt read d word = node.readAt read d word := by
  rw [group, readAt_updateAt hread (f := id) (g := id) (fun _ ↦ rfl) (fun _ _ ↦ rfl) fun _ ↦ rfl]
  exact ite_self _

theorem inside_group (node : TrieNode η) (segs : List Segment) (word : List Label) :
    (node.group segs).inside word = (node.inside word || decide (word <+: shape segs)) :=
  inside_updateAt (fun _ ↦ rfl) (fun _ _ ↦ rfl)

end TrieNode

/-! ## A list of registrations -/

/-- One call on a router: `scope` is the path of the (group) router it is made on. -/
inductive Registration (η : Type) where
  /-- `get`, `post`, … with a parsed pattern. The function may be empty. -/
  | route (scope : List Segment) (method : Fin kMethodCount) (segs : List Segment)
      (handler : Option η)
  /-- `group` with a parsed prefix. -/
  | group (scope segs : List Segment)

namespace Registration

variable {η : Type}

/-- The shape that is walked from the root. -/
def word : Registration η → List Label
  | .route scope _ segs _ => shape (scope ++ segs)
  | .group scope segs => shape (scope ++ segs)

/-- The function a registration sets for a method and a word. -/
def sets (method : Fin kMethodCount) (word : List Label) : Registration η → Option (Option η)
  | .route scope m segs handler =>
    if word = shape (scope ++ segs) ∧ method = m then some handler else none
  | .group _ _ => none

/-- The effect on the trie. -/
def apply (root : TrieNode η) : Registration η → TrieNode η
  | .route scope method segs handler => root.insert (scope ++ segs) method handler
  | .group scope segs => root.group (scope ++ segs)

end Registration

variable {η : Type}

/-- The trie after some registrations. -/
def build (regs : List (Registration η)) : TrieNode η := regs.foldl Registration.apply {}

/-- The words some registration knows: the prefixes of the registered shapes. -/
def known (regs : List (Registration η)) (word : List Label) : Bool :=
  word = [] || regs.any fun r ↦ decide (word <+: r.word)

/-- The handler of a method and a shape: the function registered last, unless it is empty. -/
def latest (regs : List (Registration η)) (method : Fin kMethodCount) (word : List Label) :
    Option η :=
  (regs.reverse.findSome? (Registration.sets method word)).join

/-- Some route has been registered for a method and a shape. -/
def registered (regs : List (Registration η)) (method : Fin kMethodCount) (word : List Label) :
    Bool :=
  regs.any fun r ↦ (r.sets method word).isSome

theorem inside_build (regs : List (Registration η)) (word : List Label) :
    (build regs).inside word = known regs word := by
  induction regs using List.reverseRecOn with
  | nil =>
    rcases word with _ | ⟨l, word⟩
    · rfl
    · rcases l with _ | _ | _ <;> rfl
  | append_singleton regs r ih =>
    have hstep : (build (regs ++ [r])).inside word
        = ((build regs).inside word || decide (word <+: r.word)) := by
      rw [build, List.foldl_append]
      rcases r with ⟨scope, method, segs, handler⟩ | ⟨scope, segs⟩
      · exact TrieNode.inside_insert _ _ _ _ _
      · exact TrieNode.inside_group _ _ _
    rw [hstep, ih, known, known, List.any_append, Bool.or_assoc]
    simp

theorem handlerAt_build (regs : List (Registration η)) (word : List Label)
    (method : Fin kMethodCount) : (build regs).handlerAt word method = latest regs method word := by
  induction regs using List.reverseRecOn with
  | nil =>
    rcases word with _ | ⟨l, word⟩
    · rfl
    · rcases l with _ | _ | _ <;> rfl
  | append_singleton regs r ih =>
    have hstep : (build (regs ++ [r])).handlerAt word method
        = (r.sets method word).getD ((build regs).handlerAt word method) := by
      rw [build, List.foldl_append]
      rcases r with ⟨scope, m, segs, handler⟩ | ⟨scope, segs⟩
      · refine (TrieNode.handlerAt_insert _ _ _ _ _ _).trans ?_
        rw [Registration.sets]
        split <;> rfl
      · refine (TrieNode.handlerAt_eq_readAt _ _ _).trans ?_
        refine (TrieNode.readAt_group (TrieNode.reads_handlers method) _ _ _).trans ?_
        exact (TrieNode.handlerAt_eq_readAt _ _ _).symm
    rw [hstep, ih, latest, latest, List.reverse_append, List.reverse_singleton,
      List.singleton_append, List.findSome?_cons]
    rcases r.sets method word with _ | h <;> rfl

/-- The bit of a method that no route can have is never set. -/
theorem bitAt_build (regs : List (Registration η)) (word : List Label) (i : ℕ) :
    (build regs).bitAt word i = true ↔
      ∃ h : i < kMethodCount, registered regs ⟨i, h⟩ word = true := by
  induction regs using List.reverseRecOn with
  | nil =>
    have hnone : (build ([] : List (Registration η))).bitAt word i = false := by
      rcases word with _ | ⟨l, word⟩
      · exact BitVec.getLsbD_zero
      · rcases l with _ | _ | _ <;> rfl
    rw [hnone]
    simp [registered]
  | append_singleton regs r ih =>
    rw [build, List.foldl_append]
    simp only [registered, List.any_append, Bool.or_eq_true, List.any_cons, List.any_nil,
      Bool.or_false] at ih ⊢
    rcases r with ⟨scope, method, segs, handler⟩ | ⟨scope, segs⟩
    · refine (Bool.eq_iff_iff.mp (TrieNode.bitAt_insert _ _ _ _ _ _)).trans ?_
      rw [Bool.or_eq_true, ← build, ih, decide_eq_true_iff, exists_or]
      refine or_congr_right ?_
      constructor
      · rintro ⟨hword, rfl⟩
        exact ⟨method.isLt, by simp [Registration.sets, hword]⟩
      · rintro ⟨h, hsets⟩
        by_cases hslot : word = shape (scope ++ segs) ∧ (⟨i, h⟩ : Fin kMethodCount) = method
        · exact ⟨hslot.1, congrArg Fin.val hslot.2⟩
        · simp [Registration.sets, hslot] at hsets
    · refine (Bool.eq_iff_iff.mp (TrieNode.readAt_group (TrieNode.reads_bit i) _ _ _)).trans ?_
      refine ih.trans ?_
      simp [Registration.sets]

theorem exists_sets_of_latest {regs : List (Registration η)} {method : Fin kMethodCount}
    {word : List Label} {handler : η} (h : latest regs method word = some handler) :
    ∃ r ∈ regs, r.sets method word = some (some handler) := by
  obtain ⟨r, hr, hsets⟩ := List.exists_of_findSome?_eq_some (Option.join_eq_some_iff.mp h)
  exact ⟨r, List.mem_reverse.mp hr, hsets⟩

end Aevox
