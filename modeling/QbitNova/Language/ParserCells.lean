import QbitNova.Language.Parser
import QbitNova.Language.VM
import QbitNova.Library.Cells

/-! # The parser over cells

The tree of a program is made of cells from `calloc` that are linked while the parser
runs. What it builds is the tree of the parser over values: one new cell for each node,
none of them shared, and `free_ast` gives every one of them back.
-/
namespace QbitNova.Language.Pointers
open CText Cells

structure ASTNode where
  type : NodeType
  value : Bytes
  left : Option ℕ
  right : Option ℕ
  body : Option ℕ
  next : Option ℕ
  deriving DecidableEq, Repr

/-- The four pointers of a node. -/
inductive Link where
  | left | right | body | next
  deriving DecidableEq

def ASTNode.follow : Link → ASTNode → Option ℕ
  | .left => ASTNode.left
  | .right => ASTNode.right
  | .body => ASTNode.body
  | .next => ASTNode.next

def ASTNode.setLink : Link → Option ℕ → ASTNode → ASTNode
  | .left, p, n => { n with left := p }
  | .right, p, n => { n with right := p }
  | .body, p, n => { n with body := p }
  | .next, p, n => { n with next := p }

abbrev HeapM := CellM ℕ Language.Fault ASTNode

/-- What `calloc` leaves in a node. -/
def cleared : ASTNode := ⟨.program, [], none, none, none, none⟩

section
variable (granted : ℕ → Bool) (toks : List Token)

def newNode (type : NodeType) (value : Bytes) : HeapM (Option ℕ) := do
  let n ← calloc granted cleared
  store n (fun node => { node with type := type })
  store n (fun node => { node with value := value.take 255 })
  return n

/-- A node from the token at hand, which is then skipped. -/
def takeNode (type : NodeType) : HeapM (Option ℕ) := do
  let token ← plain (peek toks)
  let n ← newNode granted type token.value
  let _ ← plain (advance toks)
  return n

/-- The token at hand becomes the left child of a node and is skipped. -/
def takeLeft (n : Option ℕ) (type : NodeType) : HeapM Unit := do
  let token ← plain (peek toks)
  let left ← newNode granted type token.value
  store n (ASTNode.setLink .left left)
  let _ ← plain (advance toks)

def parseExpr : HeapM (Option ℕ) := do
  let left ← takeNode granted toks .ident
  let op ← takeNode granted toks .binop
  let right ← takeNode granted toks .number
  store op (ASTNode.setLink .left left)
  store op (ASTNode.setLink .right right)
  return op

/-- The operand of say and qmsg becomes the left child. -/
def takeOperand (n : Option ℕ) : HeapM Unit := do
  let token ← plain (advance toks)
  let left ← if token.type = .string then newNode granted .string token.value
    else newNode granted .ident token.value
  store n (ASTNode.setLink .left left)

/-- The first statement becomes the body of a node, every other one follows the last. -/
def append (block last s : Option ℕ) : HeapM Unit := do
  let node ← load block
  if node.body = none then store block (ASTNode.setLink .body s) else store last (ASTNode.setLink .next s)

def blockLoop (statement : HeapM (Option ℕ)) (block last : Option ℕ) : ℕ → HeapM Unit
  | 0 => plain (fun _ => .error .outOfFuel)
  | fuel + 1 => do
    if ← plain (checkType toks .rbrace) then return ()
    else if ← plain (checkType toks .eof) then return ()
    else
      let s ← statement
      append block last s
      blockLoop statement block s fuel

def parseBlock (statement : HeapM (Option ℕ)) (fuel : ℕ) : HeapM (Option ℕ) := do
  let _ ← plain (advance toks)
  let block ← newNode granted .block (str "block")
  blockLoop toks statement block none fuel
  let _ ← plain (advance toks)
  return block

def statementFrom (block : HeapM (Option ℕ)) (t : Token) : HeapM (Option ℕ) := do
  let _ ← plain (advance toks)
  match t.type with
  | .say => do
    let n ← newNode granted .say (str "say")
    takeOperand granted toks n
    return n
  | .letKeyword => do
    let n ← takeNode granted toks .letBinding
    let _ ← plain (advance toks)
    takeLeft granted toks n .number
    return n
  | .check => do
    let n ← newNode granted .check (str "check")
    store n (ASTNode.setLink .left (← parseExpr granted toks))
    store n (ASTNode.setLink .body (← block))
    return n
  | .repeatKeyword => do
    let n ← takeNode granted toks .repeatLoop
    store n (ASTNode.setLink .body (← block))
    return n
  | .qmsg => do
    let n ← newNode granted .qmsg (str "qmsg")
    takeOperand granted toks n
    return n
  | .encode => takeNode granted toks .encodeQmsg
  | .decode => takeNode granted toks .decodeQmsg
  | .qbit => do
    let n ← takeNode granted toks .qbit
    let _ ← plain (advance toks)
    takeLeft granted toks n .state
    return n
  | .hadamard => takeNode granted toks .hadamard
  | .measure => takeNode granted toks .measure
  | .entangle => do
    let n ← takeNode granted toks .entangle
    takeLeft granted toks n .ident
    return n
  | .cnot => do
    let n ← takeNode granted toks .cnot
    takeLeft granted toks n .ident
    return n
  | .action => takeNode granted toks .action
  | _ => newNode granted .ident t.value

def parseStmt : ℕ → HeapM (Option ℕ)
  | 0 => plain (fun _ => .error .outOfFuel)
  | fuel + 1 => do
    let t ← plain (peek toks)
    statementFrom granted toks (parseBlock granted toks (parseStmt fuel) fuel) t

def programLoop (statement : HeapM (Option ℕ)) (prog last : Option ℕ) : ℕ → HeapM Unit
  | 0 => plain (fun _ => .error .outOfFuel)
  | fuel + 1 => do
    if ← plain (checkType toks .eof) then return ()
    else if ← plain (checkType toks .directive) then do
      let _ ← plain (advance toks)
      programLoop statement prog last fuel
    else
      let s ← statement
      append prog last s
      programLoop statement prog s fuel

def parse : HeapM (Option ℕ) := do
  let prog ← newNode granted .program (str "program")
  programLoop toks (parseStmt granted toks toks.length) prog none (toks.length + 1)
  return prog

end

/-- Every node is freed after its children; the depth of the recursion is bounded by `fuel`. -/
def freeAst : ℕ → Option ℕ → HeapM Unit
  | 0, _ => fun _ => .error .tooDeep
  | _ + 1, none => return ()
  | fuel + 1, some a => do
    freeAst fuel (← load (some a)).left
    freeAst fuel (← load (some a)).right
    freeAst fuel (← load (some a)).body
    freeAst fuel (← load (some a)).next
    release (some a)

/-- The number a node type has in the enumeration. -/
def code (type : NodeType) : ℕ := type.ctorIdx

def printLine (type : NodeType) (value : Bytes) (depth : ℕ) : Bytes :=
  (List.replicate depth (str "  ")).flatten ++ str "[" ++ decimal (code type) ++ str "] '" ++ value ++ str "'\n"

/-- The text that is printed for what a pointer leads to. -/
def printAst : ℕ → Option ℕ → ℕ → HeapM Bytes
  | 0, _, _ => fun _ => .error .tooDeep
  | _ + 1, none, _ => return []
  | fuel + 1, some a, depth => do
    let node ← load (some a)
    let left ← printAst fuel node.left (depth + 1)
    let right ← printAst fuel node.right (depth + 1)
    let body ← printAst fuel node.body (depth + 1)
    let next ← printAst fuel node.next depth
    return printLine node.type node.value depth ++ (left ++ (right ++ (body ++ next)))

def childOf : Link → Node → Node
  | _, .null => .null
  | .left, .node _ _ left _ _ _ => left
  | .right, .node _ _ _ right _ _ => right
  | .body, .node _ _ _ _ body _ => body
  | .next, .node _ _ _ _ _ next => next

def attach : Link → Node → Node → Node
  | .left => Node.withLeft
  | .right => Node.withRight
  | .body => Node.withBody
  | .next => Node.withNext

/-- The number of nodes of a tree. -/
def size : Node → ℕ
  | .null => 0
  | .node _ _ left right body next => size left + size right + size body + size next + 1

/-- The text of a tree. -/
def listing : Node → ℕ → Bytes
  | .null, _ => []
  | .node type value left right body next, depth =>
    printLine type value depth ++
      (listing left (depth + 1) ++ (listing right (depth + 1) ++ (listing body (depth + 1) ++ listing next depth)))

/-- A pointer leads to the cells of a tree; the footprint lists them in the order in which they are freed. -/
inductive Represents (h : Heap ASTNode) : Node → Option ℕ → List ℕ → Prop
  | null : Represents h .null none []
  | node {a : ℕ} {type : NodeType} {value : Bytes} {left right body next : Node} {p q r s : Option ℕ}
      {L R B N : List ℕ} (here : h[a]? = some (some ⟨type, value, p, q, r, s⟩)) (hl : Represents h left p L)
      (hr : Represents h right q R) (hb : Represents h body r B) (hn : Represents h next s N) :
      Represents h (.node type value left right body next) (some a) (L ++ (R ++ (B ++ N)) ++ [a])

section
variable {h h' : Heap ASTNode} {t u : Node} {p q : Option ℕ} {a : ℕ} {F G : List ℕ} {link : Link} {c : ASTNode}

theorem setLink_follow (hc : c.follow link = none) : c.setLink link none = c := by
  cases link <;> cases c <;> cases hc <;> rfl

theorem Represents.length (ht : Represents h t p F) : F.length = size t := by
  induction ht with
  | null => rfl
  | node here hl hr hb hn ihl ihr ihb ihn =>
    simp only [List.length_append,List.length_singleton,ihl,ihr,ihb,ihn,size]
    omega

/-- A tree stays where its cells stay. -/
theorem Represents.frame (ht : Represents h t p F) (hsame : ∀ i ∈ F, h'[i]? = h[i]?) : Represents h' t p F := by
  induction ht with
  | null => exact .null
  | node here hl hr hb hn ihl ihr ihb ihn =>
    refine .node ((hsame _ (by simp)).trans here) ?_ ?_ ?_ ?_
    · exact ihl fun i hi => hsame i (by simp [hi])
    · exact ihr fun i hi => hsame i (by simp [hi])
    · exact ihb fun i hi => hsame i (by simp [hi])
    · exact ihn fun i hi => hsame i (by simp [hi])

/-- The cell of a node; where the node has no child the cell has no pointer. -/
theorem Represents.cell (ht : Represents h t (some a) F) :
    a ∈ F ∧ ∃ c, h[a]? = some (some c) ∧ ∀ link, childOf link t = .null → c.follow link = none := by
  cases ht with
  | node here hl hr hb hn =>
    refine ⟨by simp,_,here,fun link hnull => ?_⟩
    cases link <;> simp only [childOf] at hnull <;> subst hnull
    · cases hl; rfl
    · cases hr; rfl
    · cases hb; rfl
    · cases hn; rfl

theorem Represents.attach (ht : Represents h t (some a) F) (hnodup : F.Nodup) (hempty : childOf link t = .null)
    (hc : h[a]? = some (some c)) (hset : h'[a]? = some (some (c.setLink link p)))
    (hsame : ∀ i ∈ F, i ≠ a → h'[i]? = h[i]?) (hu : Represents h' u p G) :
    ∃ H, Represents h' (Pointers.attach link t u) (some a) H ∧ H.Perm (F ++ G) := by
  cases ht with
  | node here hl hr hb hn =>
    obtain rfl := Option.some.inj (Option.some.inj (hc.symm.trans here))
    rename_i L R B N
    rw [List.nodup_append] at hnodup
    have hother : ∀ i ∈ L ++ (R ++ (B ++ N)), h'[i]? = h[i]? := fun i hi =>
      hsame i (List.mem_append_left _ hi) fun hia => hnodup.2.2 i hi a (by simp) hia
    have hl' := hl.frame fun i hi => hother i (by simp [hi])
    have hr' := hr.frame fun i hi => hother i (by simp [hi])
    have hb' := hb.frame fun i hi => hother i (by simp [hi])
    have hn' := hn.frame fun i hi => hother i (by simp [hi])
    cases link <;> simp only [childOf] at hempty <;> subst hempty
    · cases hl
      refine ⟨_,.node hset hu hr' hb' hn',List.perm_iff_count.mpr fun i => ?_⟩
      simp only [List.count_append,List.count_nil]
      omega
    · cases hr
      refine ⟨_,.node hset hl' hu hb' hn',List.perm_iff_count.mpr fun i => ?_⟩
      simp only [List.count_append,List.count_nil]
      omega
    · cases hb
      refine ⟨_,.node hset hl' hr' hu hn',List.perm_iff_count.mpr fun i => ?_⟩
      simp only [List.count_append,List.count_nil]
      omega
    · cases hn
      refine ⟨_,.node hset hl' hr' hb' hu,List.perm_iff_count.mpr fun i => ?_⟩
      simp only [List.count_append,List.count_nil]
      omega

/-- The tree in the cells that were added to a heap, each of which it owns. -/
structure Built (h : Heap ASTNode) (t : Node) (a : ℕ) (h' : Heap ASTNode) : Prop where
  kept : ∀ i < h.length, h'[i]? = h[i]?
  grown : h.length ≤ h'.length
  owned : ∃ F, Represents h' t (some a) F ∧ F.Perm (List.range' h.length (h'.length - h.length))

theorem mem_fresh {m n i : ℕ} (hF : F.Perm (List.range' m (n - m))) (hi : i ∈ F) : m ≤ i ∧ i < n := by
  have hrange := hF.subset hi
  rw [List.mem_range'_1] at hrange
  omega

theorem nodup_fresh {m n : ℕ} (hF : F.Perm (List.range' m n)) : F.Nodup := hF.nodup_iff.mpr List.nodup_range'

/-- The cells of two parts of the heap that follow each other. -/
theorem perm_fresh {l m n : ℕ} (hlm : l ≤ m) (hmn : m ≤ n) (hF : F.Perm (List.range' l (m - l)))
    (hG : G.Perm (List.range' m (n - m))) : (F ++ G).Perm (List.range' l (n - l)) := by
  have hjoin := List.range'_append_1 (s := l) (m := m - l) (n := n - m)
  rw [show l + (m - l) = m by omega,show m - l + (n - m) = n - l by omega] at hjoin
  rw [← hjoin]
  exact hF.append hG

theorem Built.cell {a : ℕ} (ht : Built h t a h') : h.length ≤ a ∧ a < h'.length ∧
    ∃ c, h'[a]? = some (some c) ∧ ∀ link, childOf link t = .null → c.follow link = none := by
  obtain ⟨F,hrep,hF⟩ := ht.owned
  obtain ⟨hmem,hcell⟩ := hrep.cell
  exact ⟨(mem_fresh hF hmem).1,(mem_fresh hF hmem).2,hcell⟩

/-- Two trees built one after the other, the second of which becomes a child of the first. -/
theorem Built.attach {h₁ h₂ : Heap ASTNode} {b : ℕ} (ht : Built h t a h₁) (hempty : childOf link t = .null)
    (hu : Built h₁ u b h₂) : ∃ c, h₂[a]? = some (some c) ∧
      Built h (Pointers.attach link t u) a (h₂.set a (some (c.setLink link (some b)))) := by
  obtain ⟨hha,halt,c,hc,-⟩ := ht.cell
  obtain ⟨F,hrep,hF⟩ := ht.owned
  obtain ⟨G,hrep',hG⟩ := hu.owned
  have hcell : h₂[a]? = some (some c) := (hu.kept a halt).trans hc
  have hlen : (h₂.set a (some (c.setLink link (some b)))).length = h₂.length := List.length_set
  have hother : ∀ i, i ≠ a → (h₂.set a (some (c.setLink link (some b))))[i]? = h₂[i]? := fun i hi =>
    List.getElem?_set_ne (Ne.symm hi)
  have hsub : Represents (h₂.set a (some (c.setLink link (some b)))) u (some b) G := hrep'.frame fun i hi =>
    hother i (by have := mem_fresh hG hi; omega)
  obtain ⟨H,hattached,hH⟩ := hrep.attach (nodup_fresh hF) hempty hc
    (List.getElem?_set_self (halt.trans_le hu.grown))
    (fun i hi hne => (hother i hne).trans (hu.kept i (mem_fresh hF hi).2)) hsub
  refine ⟨c,hcell,⟨fun i hi => ?_,?_,H,hattached,?_⟩⟩
  · rw [hother i (by omega),hu.kept i (hi.trans_le ht.grown),ht.kept i hi]
  · rw [hlen]
    exact ht.grown.trans hu.grown
  · rw [hlen]
    exact hH.trans (perm_fresh ht.grown hu.grown hF hG)

theorem Built.attach_earlier {h₁ h₂ : Heap ASTNode} {b : ℕ} (link : Link) (hu : Built h u b h₁) (ht : Built h₁ t a h₂)
    (hempty : childOf link t = .null) : ∃ c, h₂[a]? = some (some c) ∧
      Built h (Pointers.attach link t u) a (h₂.set a (some (c.setLink link (some b)))) := by
  obtain ⟨hha,halt,c,hc,-⟩ := ht.cell
  obtain ⟨F,hrep,hF⟩ := ht.owned
  obtain ⟨G,hrep',hG⟩ := hu.owned
  have hlen : (h₂.set a (some (c.setLink link (some b)))).length = h₂.length := List.length_set
  have hother : ∀ i, i ≠ a → (h₂.set a (some (c.setLink link (some b))))[i]? = h₂[i]? := fun i hi =>
    List.getElem?_set_ne (Ne.symm hi)
  have hsub : Represents (h₂.set a (some (c.setLink link (some b)))) u (some b) G := hrep'.frame fun i hi => by
    have hbounds := mem_fresh hG hi
    rw [hother i (by omega),ht.kept i hbounds.2]
  obtain ⟨H,hattached,hH⟩ := hrep.attach (nodup_fresh hF) hempty hc (List.getElem?_set_self halt)
    (fun i hi hne => hother i hne) hsub
  have hgrown := hu.grown
  refine ⟨c,hc,⟨fun i hi => ?_,?_,H,hattached,?_⟩⟩
  · rw [hother i (by omega),ht.kept i (hi.trans_le hgrown),hu.kept i hi]
  · rw [hlen]
    exact hgrown.trans ht.grown
  · rw [hlen]
    exact hH.trans (List.perm_append_comm.trans (perm_fresh hgrown ht.grown hG hF))

theorem Built.set_old (ht : Built h t a h') {b : ℕ} (hb : b < h.length) (cell : Option ASTNode) :
    Built (h.set b cell) t a (h'.set b cell) := by
  obtain ⟨F,hrep,hF⟩ := ht.owned
  refine ⟨fun i hi => ?_,?_,F,hrep.frame fun i hi => ?_,?_⟩
  · rw [List.length_set] at hi
    by_cases hbi : b = i
    · rw [hbi,List.getElem?_set_self hi,List.getElem?_set_self (hi.trans_le ht.grown)]
    · rw [List.getElem?_set_ne hbi,List.getElem?_set_ne hbi,ht.kept i hi]
  · rw [List.length_set,List.length_set]
    exact ht.grown
  · have hbounds := mem_fresh hF hi
    exact List.getElem?_set_ne (by omega)
  · rwa [List.length_set,List.length_set]

/-- The loop over the statements, started where the pointer of a cell is still null: that
pointer leads to the cells of their list, and no other old cell has changed. -/
structure Listed (h : Heap ASTNode) (a : ℕ) (link : Link) (c : ASTNode) (ts : List Node) (h' : Heap ASTNode) :
    Prop where
  kept : ∀ i < h.length, i ≠ a → h'[i]? = h[i]?
  grown : h.length ≤ h'.length
  owned : ∃ p F, h'[a]? = some (some (c.setLink link p)) ∧ Represents h' (chain ts) p F ∧
    F.Perm (List.range' h.length (h'.length - h.length))

theorem Listed.nil (hc : h[a]? = some (some c)) (hempty : c.follow link = none) : Listed h a link c [] h := by
  refine ⟨fun _ _ _ => rfl,le_refl _,none,[],?_,.null,?_⟩
  · rw [setLink_follow hempty,hc]
  · rw [Nat.sub_self]
    exact .nil

/-- A statement is linked and the loop goes on from its own pointer to the next one. -/
theorem Listed.cons {h₁ h₂ : Heap ASTNode} {b : ℕ} {d : ASTNode} {ts : List Node} (hc : h[a]? = some (some c))
    (ht : Built h t b h₁) (hnext : childOf .next t = .null) (hd : h₁[b]? = some (some d))
    (hrest : Listed (h₁.set a (some (c.setLink link (some b)))) b .next d ts h₂) : Listed h a link c (t :: ts) h₂ := by
  obtain ⟨hkept,hgrown,p,G,hset,hrep,hG⟩ := hrest
  rw [List.length_set] at hkept hgrown hG
  obtain ⟨hhb,hbt,-⟩ := ht.cell
  obtain ⟨F,hstatement,hF⟩ := ht.owned
  obtain ⟨halt,-⟩ := List.getElem?_eq_some_iff.mp hc
  have hfirst : ∀ i < h₁.length, i ≠ a → i ≠ b → h₂[i]? = h₁[i]? := fun i hi hia hib => by
    rw [hkept i hi hib,List.getElem?_set_ne (Ne.symm hia)]
  obtain ⟨H,hattached,hH⟩ := hstatement.attach (nodup_fresh hF) hnext hd hset
    (fun i hi hne => hfirst i (mem_fresh hF hi).2 (by have := mem_fresh hF hi; omega) hne) hrep
  refine ⟨fun i hi hia => ?_,ht.grown.trans hgrown,some b,H,?_,hattached,?_⟩
  · rw [hfirst i (hi.trans_le ht.grown) hia (by omega),ht.kept i hi]
  · rw [hkept a (halt.trans_le ht.grown) (by omega),List.getElem?_set_self (halt.trans_le ht.grown)]
  · exact hH.trans (perm_fresh ht.grown hgrown hF hG)

theorem Listed.body {h₁ h₂ : Heap ASTNode} {ts : List Node} (ht : Built h t a h₁) (hempty : childOf .body t = .null)
    (hc : h₁[a]? = some (some c)) (hlist : Listed h₁ a .body c ts h₂) : Built h (t.withBody (chain ts)) a h₂ := by
  obtain ⟨hkept,hgrown,p,G,hset,hrep,hG⟩ := hlist
  obtain ⟨hha,-,-⟩ := ht.cell
  obtain ⟨F,hnode,hF⟩ := ht.owned
  obtain ⟨H,hattached,hH⟩ := hnode.attach (nodup_fresh hF) hempty hc hset
    (fun i hi hne => hkept i (mem_fresh hF hi).2 hne) hrep
  refine ⟨fun i hi => ?_,ht.grown.trans hgrown,H,hattached,hH.trans (perm_fresh ht.grown hgrown hF hG)⟩
  rw [hkept i (hi.trans_le ht.grown) (by omega),ht.kept i hi]

end

section
variable {granted : ℕ → Bool} {toks : List Token} {h h' : Heap ASTNode}

/-- The pointer to a tree that was built. -/
def Made (h : Heap ASTNode) (t : Node) (p : Option ℕ) (h' : Heap ASTNode) : Prop := ∃ a, p = some a ∧ Built h t a h'

theorem built_newNode (type : NodeType) (value : Bytes) : Built h (Language.newNode type value) h.length
    (h ++ [some ⟨type, value.take 255, none, none, none, none⟩]) := by
  refine ⟨fun i hi => List.getElem?_append_left hi,by simp,[h.length],?_,by simp⟩
  exact .node (L := []) (R := []) (B := []) (N := []) List.getElem?_concat_length .null .null .null .null

theorem follows_newNode (type : NodeType) (value : Bytes) :
    Follows granted h (pure () : ParseM Unit) (newNode granted type value)
      fun _ p h' => Made h (Language.newNode type value) p h' := by
  refine (follows_calloc cleared ⟨type, value.take 255, none, none, none, none⟩ (some h.length) (fun s => rfl)
    (fun s => ?_)).mono ?_
  · have hlast : ∀ cell : ASTNode, (h ++ [some cell])[h.length]? = some (some cell) := fun cell =>
      List.getElem?_concat_length
    have hset : ∀ cell cell' : ASTNode, (h ++ [some cell]).set h.length (some cell') = h ++ [some cell'] := by simp
    simp only [bind,StateT.bind,store,hlast,hset,Except.bind]
    rfl
  · rintro - p h' ⟨rfl,rfl⟩
    exact ⟨h.length,rfl,built_newNode type value⟩

/-- Linking a tree that was built after its parent. -/
theorem follows_link {h₁ h₂ : Heap ASTNode} {t u : Node} {p q : Option ℕ} (link : Link) (ht : Made h t p h₁)
    (hempty : childOf link t = .null) (hu : Made h₁ u q h₂) :
    Follows granted h₂ (pure () : ParseM Unit) (store p (ASTNode.setLink link q))
      fun _ _ h' => Made h (attach link t u) p h' := by
  obtain ⟨a,rfl,ht⟩ := ht
  obtain ⟨b,rfl,hu⟩ := hu
  obtain ⟨c,hc,hattached⟩ := ht.attach hempty hu
  refine (follows_store hc _).mono ?_
  rintro - - h' rfl
  exact ⟨a,rfl,hattached⟩

theorem follows_takeNode (type : NodeType) : Follows granted h (Language.takeNode toks type)
    (takeNode granted toks type) fun t p h' => (∃ value, t = Language.newNode type value) ∧ Made h t p h' := by
  refine .plain fun token => (follows_newNode type token.value).own fun p h' hmade => .plain fun _ => .pure ?_
  exact ⟨⟨_,rfl⟩,hmade⟩

theorem follows_takeLeft {t : Node} {p : Option ℕ} (type : NodeType) (ht : Made h t p h')
    (hempty : childOf .left t = .null) : Follows granted h' (Language.takeNode toks type)
      (takeLeft granted toks p type) fun u _ h₁ => Made h (t.withLeft u) p h₁ := by
  refine .plain fun token => (follows_newNode type token.value).own fun q h₁ hmade => ?_
  exact (follows_link .left ht hempty hmade).own fun _ h₂ hattached => .plain fun _ => .pure hattached

theorem follows_takeOperand {t : Node} {p : Option ℕ} (ht : Made h t p h') (hempty : childOf .left t = .null) :
    Follows granted h' (parseOperand toks) (takeOperand granted toks p) fun u _ h₁ => Made h (t.withLeft u) p h₁ := by
  refine .plain fun token => ?_
  split
  all_goals exact (follows_newNode _ token.value).own fun q h₁ hmade =>
    (follows_link .left ht hempty hmade).last fun _ _ hattached => hattached

theorem follows_parseExpr : Follows granted h (Language.parseExpr toks) (parseExpr granted toks)
    fun t p h' => Made h t p h' := by
  refine (follows_takeNode .ident).bind ?_
  rintro left p h₁ ⟨-,a,rfl,hleft⟩
  refine (follows_takeNode .binop).bind ?_
  rintro - q h₂ ⟨⟨value,rfl⟩,b,rfl,hop⟩
  refine (follows_takeNode .number).bind ?_
  rintro right r h₃ ⟨-,c,rfl,hright⟩
  obtain ⟨-,hb,-⟩ := hop.cell
  obtain ⟨cell,hcell,hattached⟩ := hleft.attach_earlier .left hop rfl
  refine (follows_store ((hright.kept b hb).trans hcell) (ASTNode.setLink .left (some a))).own ?_
  rintro - h₄ rfl
  have hchild := hright.set_old hb (some (cell.setLink .left (some a)))
  exact (follows_link .right ⟨b,rfl,hattached⟩ rfl ⟨c,rfl,hchild⟩).own fun _ h₅ hmade => .pure hmade

/-- The pointer that the next statement is linked to: the body of the node, or else the last
statement. It is still null. -/
structure Slot (h : Heap ASTNode) (block last : Option ℕ) (a : ℕ) (link : Link) (c : ASTNode) : Prop where
  here : h[a]? = some (some c)
  empty : c.follow link = none
  place : (link = .body ∧ block = some a) ∨ (link = .next ∧ last = some a ∧
    ∃ b d, block = some b ∧ b ≠ a ∧ h[b]? = some (some d) ∧ d.body ≠ none)

theorem follows_append {block last : Option ℕ} {a : ℕ} {link : Link} {c : ASTNode} (hslot : Slot h block last a link c)
    (s : Option ℕ) : Follows granted h (pure () : ParseM Unit) (append block last s)
      fun _ _ h' => h' = h.set a (some (c.setLink link s)) := by
  obtain ⟨hc,hempty,⟨rfl,rfl⟩ | ⟨rfl,rfl,b,d,rfl,-,hd,hbody⟩⟩ := hslot
  · refine (follows_load hc).own ?_
    rintro node h' ⟨rfl,rfl⟩
    rw [if_pos (show node.body = none from hempty)]
    exact follows_store hc _
  · refine (follows_load hd).own ?_
    rintro node h' ⟨rfl,rfl⟩
    rw [if_neg hbody]
    exact follows_store hc _

/-- Behind a statement that was linked, the next slot is its own pointer to the next one. -/
theorem Slot.after {block last : Option ℕ} {a : ℕ} {link : Link} {c d : ASTNode} {t : Node} {b : ℕ}
    (hslot : Slot h block last a link c) (ht : Built h t b h') (hd : h'[b]? = some (some d))
    (hempty : d.follow .next = none) :
    Slot (h'.set a (some (c.setLink link (some b)))) block (some b) b .next d := by
  obtain ⟨hc,-,hplace⟩ := hslot
  obtain ⟨halt,-⟩ := List.getElem?_eq_some_iff.mp hc
  obtain ⟨hhb,-,-⟩ := ht.cell
  have hgrown := ht.grown
  refine ⟨?_,hempty,.inr ⟨rfl,rfl,?_⟩⟩
  · rw [List.getElem?_set_ne (by omega),hd]
  · rcases hplace with ⟨rfl,rfl⟩ | ⟨rfl,rfl,b',d',rfl,hne,hd',hbody⟩
    · refine ⟨a,_,rfl,by omega,List.getElem?_set_self (by omega),?_⟩
      simp [ASTNode.setLink]
    · obtain ⟨hlt,-⟩ := List.getElem?_eq_some_iff.mp hd'
      refine ⟨b',d',rfl,by omega,?_,hbody⟩
      rw [List.getElem?_set_ne (Ne.symm hne),ht.kept b' hlt,hd']

/-- The routine builds a statement, which nothing follows yet. -/
def BuildsStatement (granted : ℕ → Bool) (statement : ParseM Node) (statement' : HeapM (Option ℕ)) : Prop :=
  ∀ h, Follows granted h statement statement' fun t p h' => childOf .next t = .null ∧ Made h t p h'

/-- One round of a loop over statements: the statement is built and linked, and the loop goes on. -/
theorem follows_round {statement : ParseM Node} {statement' : HeapM (Option ℕ)}
    (hstatement : BuildsStatement granted statement statement') {block last : Option ℕ} {loop : ParseM (List Node)}
    (loop' : Option ℕ → HeapM Unit) (hloop : ∀ {h last a link c}, Slot h block last a link c →
      Follows granted h loop (loop' last) fun ts _ h' => Listed h a link c ts h')
    {a : ℕ} {link : Link} {c : ASTNode} (hslot : Slot h block last a link c) :
    Follows granted h (do
        let s ← statement
        let rest ← loop
        return s :: rest)
      (do
        let s ← statement'
        append block last s
        loop' s) fun ts _ h' => Listed h a link c ts h' := by
  refine (hstatement h).bind ?_
  rintro t p h₁ ⟨hnext,b,rfl,hbuilt⟩
  obtain ⟨-,-,d,hd,hnull⟩ := hbuilt.cell
  have halt := (List.getElem?_eq_some_iff.mp hslot.here).1
  have hkept : Slot h₁ block last a link c := by
    refine ⟨(hbuilt.kept a halt).trans hslot.here,hslot.empty,hslot.place.imp_right ?_⟩
    rintro ⟨hlink,hlast,b',d',hblock,hne,hd',hbody⟩
    exact ⟨hlink,hlast,b',d',hblock,hne,(hbuilt.kept b' (List.getElem?_eq_some_iff.mp hd').1).trans hd',hbody⟩
  refine (follows_append hkept (some b)).own ?_
  rintro - h₂ rfl
  refine (hloop (hslot.after hbuilt hd (hnull .next hnext))).map ?_
  intro ts _ h₃ hrest
  exact .cons hslot.here hbuilt hnext hd hrest

theorem follows_blockLoop {statement : ParseM Node} {statement' : HeapM (Option ℕ)}
    (hstatement : BuildsStatement granted statement statement') {block last : Option ℕ} {a : ℕ} {link : Link}
    {c : ASTNode} (fuel : ℕ) (hslot : Slot h block last a link c) :
    Follows granted h (Language.blockLoop toks statement fuel) (blockLoop toks statement' block last fuel)
      fun ts _ h' => Listed h a link c ts h' := by
  induction fuel generalizing h last a link c with
  | zero => exact fun s => .inl rfl
  | succ fuel ih =>
    refine .plain fun closed => ?_
    split
    · exact .pure (.nil hslot.here hslot.empty)
    · refine .plain fun ended => ?_
      split
      · exact .pure (.nil hslot.here hslot.empty)
      · exact follows_round hstatement (fun s => blockLoop toks statement' block s fuel) ih hslot

theorem follows_programLoop {statement : ParseM Node} {statement' : HeapM (Option ℕ)}
    (hstatement : BuildsStatement granted statement statement') {prog last : Option ℕ} {a : ℕ} {link : Link}
    {c : ASTNode} (fuel : ℕ) (hslot : Slot h prog last a link c) :
    Follows granted h (Language.programLoop toks statement fuel) (programLoop toks statement' prog last fuel)
      fun ts _ h' => Listed h a link c ts h' := by
  induction fuel generalizing h last a link c with
  | zero => exact fun s => .inl rfl
  | succ fuel ih =>
    refine .plain fun ended => ?_
    split
    · exact .pure (.nil hslot.here hslot.empty)
    · refine .plain fun directive => ?_
      split
      · exact .plain fun _ => ih hslot
      · exact follows_round hstatement (fun s => programLoop toks statement' prog s fuel) ih hslot

theorem follows_body {type : NodeType} {value : Bytes} {p : Option ℕ} {h₁ : Heap ASTNode}
    (hmade : Made h (Language.newNode type value) p h₁) {loop : ParseM (List Node)} {loop' : HeapM Unit}
    (hloop : ∀ {a c}, p = some a → Slot h₁ p none a .body c →
      Follows granted h₁ loop loop' fun ts _ h' => Listed h₁ a .body c ts h') :
    Follows granted h₁ loop loop' fun ts _ h' => Made h ((Language.newNode type value).withBody (chain ts)) p h' := by
  obtain ⟨a,rfl,hbuilt⟩ := hmade
  obtain ⟨-,-,c,hc,hnull⟩ := hbuilt.cell
  refine (hloop rfl ⟨hc,hnull .body rfl,.inl ⟨rfl,rfl⟩⟩).mono fun ts _ h' hlist => ?_
  exact ⟨a,rfl,hlist.body hbuilt rfl hc⟩

theorem follows_parseBlock {statement : ParseM Node} {statement' : HeapM (Option ℕ)}
    (hstatement : BuildsStatement granted statement statement') (fuel : ℕ) (h : Heap ASTNode) :
    Follows granted h (Language.parseBlock toks statement fuel) (parseBlock granted toks statement' fuel)
      fun t p h' => Made h t p h' := by
  refine .plain fun _ => (follows_newNode .block (str "block")).own fun p h₁ hmade => ?_
  refine (follows_body hmade fun _ hslot => follows_blockLoop hstatement fuel hslot).bind fun ts _ h₂ hblock => ?_
  exact .plain fun _ => .pure hblock

theorem follows_word (type : NodeType) : Follows granted h (Language.takeNode toks type) (takeNode granted toks type)
    fun t p h' => childOf .next t = .null ∧ Made h t p h' := by
  refine (follows_takeNode type).mono ?_
  rintro t p h' ⟨⟨value,rfl⟩,hmade⟩
  exact ⟨rfl,hmade⟩

theorem follows_pair (type type' : NodeType) : Follows granted h
    (do
      let name ← Language.takeNode toks type
      return name.withLeft (← Language.takeNode toks type'))
    (do
      let n ← takeNode granted toks type
      takeLeft granted toks n type'
      return n) fun t p h' => childOf .next t = .null ∧ Made h t p h' := by
  refine (follows_takeNode type).bind ?_
  rintro t p h₁ ⟨⟨value,rfl⟩,hmade⟩
  exact (follows_takeLeft type' hmade rfl).bind fun u _ h₂ hattached => .pure ⟨rfl,hattached⟩

theorem follows_binding (type type' : NodeType) : Follows granted h
    (do
      let name ← Language.takeNode toks type
      let _ ← advance toks
      return name.withLeft (← Language.takeNode toks type'))
    (do
      let n ← takeNode granted toks type
      let _ ← plain (advance toks)
      takeLeft granted toks n type'
      return n) fun t p h' => childOf .next t = .null ∧ Made h t p h' := by
  refine (follows_takeNode type).bind ?_
  rintro t p h₁ ⟨⟨value,rfl⟩,hmade⟩
  refine .plain fun _ => ?_
  exact (follows_takeLeft type' hmade rfl).bind fun u _ h₂ hattached => .pure ⟨rfl,hattached⟩

theorem follows_operand (type : NodeType) (value : Bytes) : Follows granted h
    (do return (Language.newNode type value).withLeft (← parseOperand toks))
    (do
      let n ← newNode granted type value
      takeOperand granted toks n
      return n) fun t p h' => childOf .next t = .null ∧ Made h t p h' := by
  refine (follows_newNode type value).own fun p h₁ hmade => ?_
  exact (follows_takeOperand hmade rfl).bind fun u _ h₂ hattached => .pure ⟨rfl,hattached⟩

theorem follows_statement {block : ParseM Node} {block' : HeapM (Option ℕ)}
    (hblock : ∀ h, Follows granted h block block' fun t p h' => Made h t p h') (t : Token) (h : Heap ASTNode) :
    Follows granted h (Language.statementFrom toks block t) (statementFrom granted toks block' t)
      fun u p h' => childOf .next u = .null ∧ Made h u p h' := by
  unfold Language.statementFrom statementFrom
  cases t.type with
  | say => exact .plain fun _ => follows_operand .say (str "say")
  | qmsg => exact .plain fun _ => follows_operand .qmsg (str "qmsg")
  | letKeyword => exact .plain fun _ => follows_binding .letBinding .number
  | qbit => exact .plain fun _ => follows_binding .qbit .state
  | entangle => exact .plain fun _ => follows_pair .entangle .ident
  | cnot => exact .plain fun _ => follows_pair .cnot .ident
  | encode => exact .plain fun _ => follows_word .encodeQmsg
  | decode => exact .plain fun _ => follows_word .decodeQmsg
  | hadamard => exact .plain fun _ => follows_word .hadamard
  | measure => exact .plain fun _ => follows_word .measure
  | action => exact .plain fun _ => follows_word .action
  | check =>
    refine .plain fun _ => (follows_newNode .check (str "check")).own fun p h₁ hmade => ?_
    refine follows_parseExpr.bind fun u q h₂ hcondition => ?_
    refine (follows_link .left hmade rfl hcondition).own fun _ h₃ hleft => ?_
    refine (hblock h₃).bind fun v r h₄ hbody => ?_
    exact (follows_link .body hleft rfl hbody).own fun _ h₅ hdone => .pure ⟨rfl,hdone⟩
  | repeatKeyword =>
    refine .plain fun _ => (follows_takeNode .repeatLoop).bind ?_
    rintro u p h₁ ⟨⟨value,rfl⟩,hmade⟩
    refine (hblock h₁).bind fun v r h₂ hbody => ?_
    exact (follows_link .body hmade rfl hbody).own fun _ h₃ hdone => .pure ⟨rfl,hdone⟩
  | _ => exact .plain fun _ => (follows_newNode .ident t.value).last fun p h₁ hmade => ⟨rfl,hmade⟩

theorem follows_parseStmt (fuel : ℕ) :
    BuildsStatement granted (Language.parseStmt toks fuel) (parseStmt granted toks fuel) := by
  induction fuel with
  | zero => exact fun h s => .inl rfl
  | succ fuel ih => exact fun h => .plain fun t => follows_statement (follows_parseBlock ih fuel) t h

/-- The parser over values with its position. -/
def parsed (toks : List Token) : ParseM Node := do
  let statements ← Language.programLoop toks (Language.parseStmt toks toks.length) (toks.length + 1)
  return (Language.newNode .program (str "program")).withBody (chain statements)

theorem follows_parse (h : Heap ASTNode) :
    Follows granted h (parsed toks) (parse granted toks) fun t p h' => Made h t p h' := by
  refine (follows_newNode .program (str "program")).own fun p h₁ hmade => ?_
  refine (follows_body hmade fun _ hslot => follows_programLoop (follows_parseStmt _) _ hslot).bind ?_
  exact fun ts _ h₂ hprog => .pure hprog

end

/-- The order in which `free_ast` follows the pointers of a node. -/
def fields : List (ASTNode → Option ℕ) := [ASTNode.left, ASTNode.right, ASTNode.body, ASTNode.next]

theorem freeAst_eq (fuel : ℕ) : freeAst fuel = dispose fields fuel := by
  induction fuel with
  | zero => rfl
  | succ fuel ih =>
    funext p
    cases p with
    | none => rfl
    | some a =>
      simp only [freeAst,dispose,fields,List.forM_cons,List.forM_nil,ih,bind_assoc,pure_bind]

section
variable {granted : ℕ → Bool} {toks : List Token} {h h' : Heap ASTNode} {t : Node} {p : Option ℕ} {F : List ℕ}

theorem Represents.forest (ht : Represents h t p F) : Forest fields h [p] F := by
  induction ht with
  | null => exact .null .nil
  | node here hl hr hb hn ihl ihr ihb ihn =>
    have hlinks := ihl.append (ihr.append (ihb.append ihn))
    exact .cell here hlinks .nil

/-- What is printed from the cells is the text of the tree. -/
theorem Represents.print (ht : Represents h t p F) {fuel : ℕ} (hfuel : F.length < fuel) (depth pos : ℕ) :
    printAst fuel p depth (pos, h) = .ok (listing t depth, (pos, h)) := by
  induction ht generalizing fuel depth with
  | null =>
    obtain ⟨fuel,rfl⟩ : ∃ n, fuel = n + 1 := ⟨fuel - 1,by omega⟩
    rfl
  | node here hl hr hb hn ihl ihr ihb ihn =>
    obtain ⟨fuel,rfl⟩ : ∃ n, fuel = n + 1 := ⟨fuel - 1,by omega⟩
    simp only [List.length_append,List.length_singleton] at hfuel
    rw [printAst,run_bind_ok (load_ok here),run_bind_ok (ihl (by omega) (depth + 1)),run_bind_ok (ihr (by omega) (depth + 1)),
      run_bind_ok (ihb (by omega) (depth + 1)),run_bind_ok (ihn (by omega) depth)]
    rfl

theorem Built.eq_append {a : ℕ} (ht : Built h t a h') : h' = h ++ h'.drop h.length ∧ h'.length = h.length + size t := by
  obtain ⟨F,hrep,hF⟩ := ht.owned
  have hsize := hF.length_eq
  rw [hrep.length,List.length_range'] at hsize
  have hgrown := ht.grown
  refine ⟨List.ext_getElem? fun i => ?_,by omega⟩
  by_cases hi : i < h.length
  · rw [ht.kept i hi,List.getElem?_append_left hi]
  · rw [List.getElem?_append_right (by omega),List.getElem?_drop,show h.length + (i - h.length) = i by omega]

/-- Without the cells that were added, the heap is what it was, with as many empty places. -/
theorem without_fresh {added : Heap ASTNode} {n : ℕ} (hn : added.length = n) (hF : F.Perm (List.range' h.length n)) :
    without F (h ++ added) = h ++ List.replicate n none := by
  refine List.ext_getElem? fun i => ?_
  by_cases hmem : i ∈ F
  · have hrange := hF.subset hmem
    rw [List.mem_range'_1] at hrange
    rw [getElem?_without_of_mem hmem (by rw [List.length_append]; omega),List.getElem?_append_right hrange.1,
      List.getElem?_replicate,if_pos (by omega)]
  · have hrange : ¬ (h.length ≤ i ∧ i < h.length + n) := fun hin => hmem (hF.symm.subset (List.mem_range'_1.mpr hin))
    rw [getElem?_without hmem]
    by_cases hi : i < h.length
    · rw [List.getElem?_append_left hi,List.getElem?_append_left hi]
    · rw [List.getElem?_eq_none (by rw [List.length_append]; omega),
        List.getElem?_eq_none (by rw [List.length_append,List.length_replicate]; omega)]

theorem parse_eq (toks : List Token) : Language.parse toks = (parsed toks 0).map Prod.fst := by
  simp only [Language.parse,parsed,bind,StateT.bind,Except.bind]
  cases Language.programLoop toks (Language.parseStmt toks toks.length) (toks.length + 1) 0 <;> rfl

/-- Over cells the parser builds the tree of the parser over values in new cells, one for
each node, none of them shared, unless it is denied one of them and writes through the null
pointer. What is printed from these cells is the tree, and `free_ast` gives all of them
back, each once, and no other cell. -/
theorem tree_owned (granted : ℕ → Bool) (toks : List Token) (h : Heap ASTNode) :
    (∀ fault, Language.parse toks = .error fault →
      parse granted toks (0, h) = .error (.own fault) ∨ parse granted toks (0, h) = .error .nullPointer) ∧
    ∀ tree, Language.parse toks = .ok tree →
      (¬ Granted granted h.length (h.length + size tree) → parse granted toks (0, h) = .error .nullPointer) ∧
      (Granted granted h.length (h.length + size tree) → ∃ root pos added F, added.length = size tree ∧
        parse granted toks (0, h) = .ok (some root, (pos, h ++ added)) ∧
        Represents (h ++ added) tree (some root) F ∧ F.Perm (List.range' h.length (size tree)) ∧
        ∀ fuel > size tree, ∀ depth,
          printAst fuel (some root) depth (pos, h ++ added) = .ok (listing tree depth, (pos, h ++ added)) ∧
          freeAst fuel (some root) (pos, h ++ added) = .ok ((), (pos, h ++ List.replicate (size tree) none))) := by
  have hrun := @follows_parse granted toks h 0
  rw [parse_eq]
  cases hparsed : parsed toks 0 with
  | error fault =>
    rw [hparsed] at hrun
    refine ⟨fun other hother => ?_,by simp [Except.map]⟩
    obtain rfl : fault = other := by simpa [Except.map] using hother
    exact hrun
  | ok result =>
    obtain ⟨t,pos⟩ := result
    rw [hparsed] at hrun
    obtain ⟨-,h',⟨root,rfl,hbuilt⟩,-,hok,hdenied⟩ := hrun
    obtain ⟨happend,hlength⟩ := hbuilt.eq_append
    refine ⟨by simp [Except.map],fun tree htree => ?_⟩
    obtain rfl : t = tree := by simpa [Except.map] using htree
    rw [hlength] at hok hdenied
    refine ⟨hdenied,fun hgranted => ?_⟩
    obtain ⟨F,hrep,hF⟩ := hbuilt.owned
    rw [hlength,Nat.add_sub_cancel_left] at hF
    have hadded : (h'.drop h.length).length = size t := by rw [List.length_drop]; omega
    rw [happend] at hrep
    refine ⟨root,pos,h'.drop h.length,F,hadded,?_,hrep,hF,fun fuel hfuel depth => ⟨?_,?_⟩⟩
    · rw [← happend]
      exact hok hgranted
    · exact hrep.print (by rw [hrep.length]; exact hfuel) depth pos
    · rw [freeAst_eq,dispose_forest hrep.forest (nodup_fresh hF) (by rw [hrep.length]; exact hfuel),
        without_fresh hadded hF]

def loopTokens : List Token := tokenize (str "repeat 2 \x7b cnot q p \x7d")

def loopTree : Node := (Language.newNode .program (str "program")).withBody
  ((Language.newNode .repeatLoop (str "2")).withBody ((Language.newNode .block (str "block")).withBody
    ((Language.newNode .cnot (str "q")).withLeft (Language.newNode .ident (str "p")))))

theorem tree_owned_repeat : parse (fun i => i < 4) loopTokens (0, []) = .error .nullPointer ∧
    ∃ root pos added F, added.length = 5 ∧ parse (fun i => i < 5) loopTokens (0, []) = .ok (some root, (pos, added)) ∧
      Represents added loopTree (some root) F ∧
      freeAst 6 (some root) (pos, added) = .ok ((), (pos, List.replicate 5 none)) := by
  have htree : Language.parse loopTokens = .ok loopTree := by decide
  obtain ⟨hdenied,-⟩ := (tree_owned (fun i => decide (i < 4)) loopTokens []).2 loopTree htree
  obtain ⟨-,hgranted⟩ := (tree_owned (fun i => decide (i < 5)) loopTokens []).2 loopTree htree
  refine ⟨hdenied fun hall => absurd (hall 4 (by decide) (by decide)) (by decide),?_⟩
  obtain ⟨root,pos,added,F,hlength,hparse,hrep,-,hwalks⟩ := hgranted fun i _ hi => decide_eq_true hi
  exact ⟨root,pos,added,F,hlength,hparse,hrep,(hwalks 6 (by decide) 0).2⟩

end

end QbitNova.Language.Pointers
