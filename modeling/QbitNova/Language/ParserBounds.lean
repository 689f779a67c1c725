import QbitNova.Language.Parser
import Mathlib.Tactic.Tauto

/-! # Where the parser stays inside the token array

Every statement takes a fixed number of tokens after its keyword, whatever they are,
and a block takes one more for each of its braces. Counting them shows exactly which
token sequences the parser reads without passing the count: those that do not end
inside a statement or a block.
-/
namespace QbitNova.Language
open CText

/-- The tokens a statement takes after its first one, the opening brace of its block included. -/
def TokenType.needs : TokenType → ℕ
  | .say => 1
  | .letKeyword => 3
  | .check => 4
  | .repeatKeyword => 2
  | .qmsg => 1
  | .encode => 1
  | .decode => 1
  | .qbit => 3
  | .hadamard => 1
  | .measure => 1
  | .entangle => 2
  | .cnot => 2
  | .action => 1
  | _ => 0

/-- The blocks a statement opens. -/
def TokenType.opens : TokenType → ℕ
  | .check => 1
  | .repeatKeyword => 1
  | _ => 0

/-- The tokens end outside of any statement and any block, when `depth` blocks are
open and the statement at hand still takes `owed` tokens. -/
def complete : ℕ → ℕ → List TokenType → Bool
  | depth, owed, [] => depth == 0 && owed == 0
  | depth, owed + 1, _ :: rest => complete depth owed rest
  | depth, 0, t :: rest =>
    if 0 < depth ∧ t = .rbrace then complete (depth - 1) 0 rest
    else complete (depth + t.opens) t.needs rest

/-- The types of the tokens before the final EOF. -/
def typesOf (toks : List Token) : List TokenType := toks.dropLast.map Token.type

section
variable {α β : Type} {toks : List Token}

/-- The routine takes exactly `k` tokens, whatever they are. -/
def Takes (toks : List Token) (k : ℕ) (m : ParseM α) : Prop :=
  ∀ pos, (pos + k ≤ toks.length → ∃ a, m pos = .ok (a, pos + k)) ∧
    (toks.length < pos + k → ∃ p, m pos = .error (.pastEnd p) ∧ toks.length ≤ p)

theorem bind_ok {m : ParseM α} {f : α → ParseM β} {pos q : ℕ} {a : α} (h : m pos = .ok (a, q)) :
    (m >>= f) pos = f a q := by
  simp only [bind,StateT.bind,h,Except.bind]

theorem bind_error {m : ParseM α} {f : α → ParseM β} {pos : ℕ} {fault : Fault} (h : m pos = .error fault) :
    (m >>= f) pos = .error fault := by
  simp only [bind,StateT.bind,h,Except.bind]

theorem peek_ok {pos : ℕ} {t : Token} (h : toks[pos]? = some t) : peek toks pos = .ok (t, pos) := by
  simp only [peek,h]

theorem peek_error {pos : ℕ} (h : toks.length ≤ pos) : peek toks pos = .error (.pastEnd pos) := by
  simp only [peek,List.getElem?_eq_none h]

theorem takes_advance (toks : List Token) : Takes toks 1 (advance toks) := by
  intro pos
  refine ⟨fun h => ?_,fun h => ⟨pos,?_,by omega⟩⟩
  · exact ⟨toks[pos],by simp only [advance,List.getElem?_eq_getElem (show pos < toks.length by omega)]⟩
  · simp only [advance,List.getElem?_eq_none (show toks.length ≤ pos by omega)]

theorem Takes.bind {j k : ℕ} {m : ParseM α} {f : α → ParseM β} (hm : Takes toks j m)
    (hf : ∀ a, Takes toks k (f a)) : Takes toks (j + k) (m >>= f) := by
  intro pos
  constructor
  · intro h
    obtain ⟨a,ha⟩ := (hm pos).1 (by omega)
    obtain ⟨b,hb⟩ := (hf a (pos + j)).1 (by omega)
    exact ⟨b,by rw [bind_ok ha,hb,Nat.add_assoc]⟩
  · intro h
    by_cases hj : pos + j ≤ toks.length
    · obtain ⟨a,ha⟩ := (hm pos).1 hj
      obtain ⟨p,hp,hle⟩ := (hf a (pos + j)).2 (by omega)
      exact ⟨p,by rw [bind_ok ha,hp],hle⟩
    · obtain ⟨p,hp,hle⟩ := (hm pos).2 (by omega)
      exact ⟨p,bind_error hp,hle⟩

/-- A result computed without reading changes nothing. -/
theorem Takes.map {k : ℕ} {m : ParseM α} {f : α → ParseM β} (hm : Takes toks k m)
    (hf : ∀ a, ∃ b, f a = pure b) : Takes toks k (m >>= f) := by
  intro pos
  constructor
  · intro h
    obtain ⟨a,ha⟩ := (hm pos).1 h
    obtain ⟨b,hb⟩ := hf a
    exact ⟨b,by rw [bind_ok ha,hb]; rfl⟩
  · intro h
    obtain ⟨p,hp,hle⟩ := (hm pos).2 h
    exact ⟨p,bind_error hp,hle⟩

theorem takes_takeNode (toks : List Token) (type : NodeType) : Takes toks 1 (takeNode toks type) := by
  intro pos
  constructor
  · intro h
    have hlt : pos < toks.length := by omega
    have hpeek := peek_ok (List.getElem?_eq_getElem hlt)
    obtain ⟨a,ha⟩ := (takes_advance toks pos).1 h
    refine ⟨newNode type toks[pos].value,?_⟩
    rw [takeNode,bind_ok hpeek,bind_ok ha]
    rfl
  · intro h
    exact ⟨pos,by rw [takeNode,bind_error (peek_error (by omega))],by omega⟩

theorem takes_parseOperand (toks : List Token) : Takes toks 1 (parseOperand toks) := by
  refine (takes_advance toks).map ?_
  intro token
  split
  · exact ⟨_,rfl⟩
  · exact ⟨_,rfl⟩

theorem takes_parseExpr (toks : List Token) : Takes toks 3 (parseExpr toks) := by
  refine (takes_takeNode toks _).bind (j := 1) (k := 2) fun left => ?_
  refine (takes_takeNode toks _).bind (j := 1) (k := 1) fun op => ?_
  exact (takes_takeNode toks _).map fun right => ⟨_,rfl⟩

theorem takes_statement (toks : List Token) (block : ParseM Node) {t : Token} (h : t.type.opens = 0) :
    Takes toks (1 + t.type.needs) (statementFrom toks block t) := by
  have hname : ∀ type, Takes toks (1 + 1) (advance toks >>= fun _ => takeNode toks type) :=
    fun type => (takes_advance toks).bind fun _ => takes_takeNode toks type
  have hsay : ∀ f : Node → Node,
      Takes toks (1 + 1) (advance toks >>= fun _ => parseOperand toks >>= fun x => pure (f x)) :=
    fun f => (takes_advance toks).bind fun _ => (takes_parseOperand toks).map fun x => ⟨f x,rfl⟩
  have htwo : ∀ (a b : NodeType) (f : Node → Node → Node), Takes toks (1 + (1 + 1))
      (advance toks >>= fun _ => takeNode toks a >>= fun x => takeNode toks b >>= fun y => pure (f x y)) :=
    fun a b f => (takes_advance toks).bind fun _ => (takes_takeNode toks a).bind fun x =>
      (takes_takeNode toks b).map fun y => ⟨f x y,rfl⟩
  have hset : ∀ (a b : NodeType) (f : Node → Node → Node), Takes toks (1 + (1 + (1 + 1)))
      (advance toks >>= fun _ => takeNode toks a >>= fun x => advance toks >>= fun _ =>
        takeNode toks b >>= fun y => pure (f x y)) :=
    fun a b f => (takes_advance toks).bind fun _ => (takes_takeNode toks a).bind fun x =>
      (takes_advance toks).bind fun _ => (takes_takeNode toks b).map fun y => ⟨f x y,rfl⟩
  unfold statementFrom
  cases ht : t.type with
  | say => exact hsay _
  | letKeyword => exact hset _ _ _
  | check => rw [ht] at h; cases h
  | repeatKeyword => rw [ht] at h; cases h
  | qmsg => exact hsay _
  | encode => exact hname _
  | decode => exact hname _
  | qbit => exact hset _ _ _
  | hadamard => exact hname _
  | measure => exact hname _
  | entangle => exact htwo _ _ _
  | cnot => exact htwo _ _ _
  | action => exact hname _
  | _ => exact (takes_advance toks).map fun _ => ⟨_,rfl⟩

theorem statement_block (toks : List Token) (block : ParseM Node) {t : Token} (h : t.type.opens ≠ 0) :
    t.type.opens = 1 ∧ 2 ≤ t.type.needs ∧ ∃ (m : ParseM Node) (f : Node → Node → Node),
      Takes toks t.type.needs m ∧
      statementFrom toks block t = (m >>= fun a => block >>= fun b => pure (f a b)) := by
  unfold statementFrom
  cases ht : t.type with
  | check =>
    refine ⟨rfl,by decide,advance toks >>= fun _ => parseExpr toks,
      fun a b => ((newNode .check (str "check")).withLeft a).withBody b,?_,?_⟩
    · exact (takes_advance toks).bind (j := 1) (k := 3) fun _ => takes_parseExpr toks
    · simp only [bind_assoc]
  | repeatKeyword =>
    refine ⟨rfl,by decide,advance toks >>= fun _ => takeNode toks .repeatLoop,fun a b => a.withBody b,?_,?_⟩
    · exact (takes_advance toks).bind (j := 1) (k := 1) fun _ => takes_takeNode toks _
    · simp only [bind_assoc]
  | _ => rw [ht] at h; exact absurd rfl h

end

theorem complete_nil_owed (depth owed : ℕ) : complete depth (owed + 1) [] = false := by
  simp [complete]

theorem complete_skip (depth k : ℕ) (types : List TokenType) :
    complete depth k types = (decide (k ≤ types.length) && complete depth 0 (types.drop k)) := by
  induction k generalizing types with
  | zero => simp
  | succ k ih =>
    cases types with
    | nil => simp [complete]
    | cons t rest => simp [complete,ih rest]

theorem complete_skip_part (depth j k : ℕ) (types : List TokenType) :
    complete depth (j + (k + 1)) types = complete depth (k + 1) (types.drop j) := by
  induction j generalizing types with
  | zero => simp
  | succ j ih =>
    cases types with
    | nil => simp [complete]
    | cons t rest =>
      rw [Nat.add_right_comm]
      simpa only [complete,List.drop_succ_cons] using ih rest

/-- The tokens from a position on are complete with `depth` blocks open; a position
after EOF leaves nothing to complete them. -/
def remaining (types : List TokenType) (pos depth : ℕ) : Bool :=
  decide (pos ≤ types.length) && complete depth 0 (types.drop pos)

theorem remaining_of_le {types : List TokenType} {pos : ℕ} (h : pos ≤ types.length) (depth : ℕ) :
    remaining types pos depth = complete depth 0 (types.drop pos) := by
  simp only [remaining,h,decide_true,Bool.true_and]

theorem remaining_past {types : List TokenType} {pos : ℕ} (h : types.length < pos) (depth : ℕ) :
    remaining types pos depth = false := by
  simp only [remaining,Nat.not_le.mpr h,decide_false,Bool.false_and]

/-- A routine that starts at `pos` with `want depth` left to complete either ends at a
later position with the same still to complete, or reads past the end of tokens that
were not complete. -/
def Agrees {α : Type} (types : List TokenType) (pos : ℕ) (want : ℕ → Bool)
    (result : Except Fault (α × ℕ)) : Prop :=
  (∃ a q, result = .ok (a, q) ∧ pos < q ∧ q ≤ types.length + 1 ∧
    ∀ depth, want depth = remaining types q depth) ∨
  (∃ p, result = .error (.pastEnd p) ∧ types.length + 1 ≤ p ∧ ∀ depth, want depth = false)

section
variable {toks : List Token} {types : List TokenType}

/-- The tokens before a final EOF, none of them EOF. -/
structure EndsInEof (toks : List Token) (types : List TokenType) : Prop where
  split : toks.map Token.type = types ++ [.eof]
  before : ∀ t ∈ types, t ≠ .eof

theorem EndsInEof.length (h : EndsInEof toks types) : toks.length = types.length + 1 := by
  have := congrArg List.length h.split
  simpa using this

/-- The token at hand, for every position up to EOF. -/
theorem EndsInEof.token (h : EndsInEof toks types) {pos : ℕ} (hpos : pos ≤ types.length) :
    ∃ t, toks[pos]? = some t ∧ (t.type = .eof ↔ pos = types.length) ∧
      (pos < types.length → types.drop pos = t.type :: types.drop (pos + 1)) := by
  have hlt : pos < toks.length := by rw [h.length]; omega
  refine ⟨toks[pos],List.getElem?_eq_getElem hlt,?_⟩
  have htype : (types ++ [TokenType.eof])[pos]? = some toks[pos].type := by
    rw [← h.split,List.getElem?_map,List.getElem?_eq_getElem hlt]
    rfl
  by_cases hp : pos < types.length
  · rw [List.getElem?_append_left hp,List.getElem?_eq_getElem hp] at htype
    have hget : types[pos] = toks[pos].type := Option.some.inj htype
    refine ⟨⟨fun he => ?_,fun he => by omega⟩,fun _ => by rw [← hget]; exact List.drop_eq_getElem_cons hp⟩
    exact absurd (hget.trans he) (h.before _ (List.getElem_mem hp))
  · obtain rfl : pos = types.length := by omega
    rw [List.getElem?_append_right (Nat.le_refl _),Nat.sub_self] at htype
    exact ⟨⟨fun _ => rfl,fun _ => (Option.some.inj htype).symm⟩,fun hlt => absurd hlt hp⟩

theorem checkType_ok {pos : ℕ} {t : Token} (h : toks[pos]? = some t) (type : TokenType) :
    checkType toks type pos = .ok (t.type == type, pos) := by
  rw [checkType,bind_ok (peek_ok h)]
  rfl

theorem checkType_error {pos : ℕ} (h : toks.length ≤ pos) (type : TokenType) :
    checkType toks type pos = .error (.pastEnd pos) := by
  rw [checkType,bind_error (peek_error h)]

/-- What the statement at a position has to agree with. -/
def wanted (types : List TokenType) (pos : ℕ) (t : TokenType) (depth : ℕ) : Bool :=
  complete (depth + t.opens) t.needs (types.drop (pos + 1))

/-- The loop of a block stops at its closing brace or at EOF. -/
theorem blockLoop_agrees (h : EndsInEof toks types) (statement : ParseM Node) (fuel : ℕ) {pos : ℕ}
    (hpos : pos ≤ types.length + 1) (hfuel : types.length + 1 ≤ fuel + pos) (hone : 1 ≤ fuel)
    (hstatement : ∀ p t, pos ≤ p → p < types.length → toks[p]? = some t →
      Agrees types p (wanted types p t.type) (statement p)) :
    (∃ body q, blockLoop toks statement fuel pos = .ok (body, q) ∧ pos ≤ q ∧ q ≤ types.length ∧
      ∀ depth, remaining types pos (depth + 1) = remaining types (q + 1) depth) ∨
    (∃ p, blockLoop toks statement fuel pos = .error (.pastEnd p) ∧ types.length + 1 ≤ p ∧
      ∀ depth, remaining types pos (depth + 1) = false) := by
  induction fuel generalizing pos with
  | zero => omega
  | succ fuel ih =>
    by_cases hend : pos = types.length + 1
    · right
      refine ⟨pos,?_,by omega,fun depth => remaining_past (by omega) _⟩
      rw [blockLoop,bind_error (checkType_error (by rw [h.length]; omega) _)]
    have hle : pos ≤ types.length := by omega
    obtain ⟨t,ht,heof,hdrop⟩ := h.token hle
    rw [blockLoop,bind_ok (checkType_ok ht _)]
    by_cases hlast : pos = types.length
    · left
      have he : t.type = .eof := heof.mpr hlast
      have hne : (t.type == TokenType.rbrace) = false := by rw [he]; rfl
      refine ⟨[],pos,?_,Nat.le_refl _,hle,fun depth => ?_⟩
      · simp only [hne,Bool.false_eq_true,↓reduceIte]
        rw [bind_ok (checkType_ok ht _)]
        simp only [he,beq_self_eq_true,↓reduceIte]
        rfl
      · rw [remaining_of_le hle,remaining_past (by omega),hlast]
        simp [complete]
    have hlt : pos < types.length := by omega
    by_cases hbrace : t.type = .rbrace
    · left
      refine ⟨[],pos,?_,Nat.le_refl _,hle,fun depth => ?_⟩
      · simp only [hbrace,beq_self_eq_true,↓reduceIte]
        rfl
      · rw [remaining_of_le hle,remaining_of_le (by omega),hdrop hlt,hbrace]
        simp [complete]
    have hne : (t.type == TokenType.rbrace) = false := by simpa using hbrace
    have hneof : (t.type == TokenType.eof) = false := by simpa using fun he => hlast (heof.mp he)
    have hnext : ∀ depth, remaining types pos (depth + 1) = wanted types pos t.type (depth + 1) := by
      intro depth
      rw [remaining_of_le hle,hdrop hlt]
      simp [complete,wanted,hbrace]
    simp only [hne,Bool.false_eq_true,↓reduceIte]
    rw [bind_ok (checkType_ok ht _)]
    simp only [hneof,Bool.false_eq_true,↓reduceIte]
    rcases hstatement pos t (Nat.le_refl _) hlt ht with ⟨a,q,hok,hq,hqle,hwant⟩ | ⟨p,herr,hp,hwant⟩
    · rw [bind_ok hok]
      rcases ih hqle (by omega) (by omega) (fun p t hp => hstatement p t (by omega)) with
        ⟨body,r,hloop,hr,hrle,hrest⟩ | ⟨p,hloop,hp,hrest⟩
      · left
        refine ⟨a :: body,r,by rw [bind_ok hloop]; rfl,by omega,hrle,fun depth => ?_⟩
        rw [hnext,hwant,hrest]
      · right
        refine ⟨p,bind_error hloop,hp,fun depth => ?_⟩
        rw [hnext,hwant,hrest]
    · right
      refine ⟨p,bind_error herr,hp,fun depth => ?_⟩
      rw [hnext,hwant]

theorem parseBlock_agrees (h : EndsInEof toks types) (statement : ParseM Node) (fuel : ℕ) {pos : ℕ}
    (hpos : pos ≤ types.length + 1) (hfuel : types.length ≤ fuel + pos) (hone : pos ≤ types.length → 1 ≤ fuel)
    (hstatement : ∀ p t, pos < p → p < types.length → toks[p]? = some t →
      Agrees types p (wanted types p t.type) (statement p)) :
    Agrees types pos (fun depth => complete (depth + 1) 1 (types.drop pos)) (parseBlock toks statement fuel pos) := by
  have hlen := h.length
  by_cases hend : pos = types.length + 1
  · right
    obtain ⟨p,hp,hle⟩ := (takes_advance toks pos).2 (by omega)
    refine ⟨p,by rw [parseBlock,bind_error hp],by omega,fun depth => ?_⟩
    rw [List.drop_eq_nil_of_le (by omega)]
    exact complete_nil_owed _ 0
  obtain ⟨brace,hbrace⟩ := (takes_advance toks pos).1 (by omega)
  have hskip : ∀ depth, complete (depth + 1) 1 (types.drop pos) = remaining types (pos + 1) (depth + 1) := by
    intro depth
    rw [complete_skip,List.drop_drop,List.length_drop,remaining]
    congr 1
    exact decide_eq_decide.mpr (by omega)
  rw [parseBlock,bind_ok hbrace]
  rcases blockLoop_agrees h statement fuel (show pos + 1 ≤ types.length + 1 by omega) (by omega) (hone (by omega))
    (fun p t hp => hstatement p t (by omega)) with ⟨body,q,hloop,hq,hqle,hrest⟩ | ⟨p,hloop,hp,hrest⟩
  · left
    obtain ⟨close,hclose⟩ := (takes_advance toks q).1 (by omega)
    refine ⟨_,q + 1,by rw [bind_ok hloop,bind_ok hclose]; rfl,by omega,by omega,fun depth => ?_⟩
    exact (hskip depth).trans (hrest depth)
  · right
    refine ⟨p,bind_error hloop,hp,fun depth => ?_⟩
    exact (hskip depth).trans (hrest depth)

theorem parseStmt_agrees (h : EndsInEof toks types) (fuel : ℕ) {pos : ℕ} {t : Token} (hpos : pos < types.length)
    (hfuel : types.length ≤ fuel + pos) (ht : toks[pos]? = some t) :
    Agrees types pos (wanted types pos t.type) (parseStmt toks fuel pos) := by
  have hlen := h.length
  induction fuel generalizing pos t with
  | zero => omega
  | succ fuel ih =>
    rw [parseStmt,bind_ok (peek_ok ht)]
    by_cases hopens : t.type.opens = 0
    · have htakes := takes_statement toks (parseBlock toks (parseStmt toks fuel) fuel) hopens pos
      have hwant : ∀ depth, wanted types pos t.type depth = remaining types (pos + (1 + t.type.needs)) depth := by
        intro depth
        rw [wanted,hopens,complete_skip,List.drop_drop,List.length_drop,remaining,Nat.add_zero,Nat.add_assoc]
        congr 1
        exact decide_eq_decide.mpr (by omega)
      by_cases hle : pos + (1 + t.type.needs) ≤ toks.length
      · obtain ⟨a,ha⟩ := htakes.1 hle
        exact Or.inl ⟨a,_,ha,by omega,by omega,hwant⟩
      · obtain ⟨p,hp,hpl⟩ := htakes.2 (by omega)
        refine Or.inr ⟨p,hp,by omega,fun depth => ?_⟩
        rw [hwant,remaining_past (by omega)]
    · obtain ⟨hone,htwo,m,f,hm,he⟩ := statement_block toks
        (parseBlock toks (parseStmt toks fuel) fuel) hopens
      obtain ⟨k,hk⟩ : ∃ k, t.type.needs = k + 1 := ⟨t.type.needs - 1,by omega⟩
      have hwant : ∀ depth, wanted types pos t.type depth =
          complete (depth + 1) 1 (types.drop (pos + t.type.needs)) := by
        intro depth
        rw [wanted,hone,hk,complete_skip_part _ k 0,List.drop_drop]
        congr 2
        omega
      rw [he]
      by_cases hle : pos + t.type.needs ≤ toks.length
      · obtain ⟨a,ha⟩ := (hm pos).1 hle
        rw [bind_ok ha]
        have hblock := parseBlock_agrees h (parseStmt toks fuel) fuel
          (show pos + t.type.needs ≤ types.length + 1 by omega) (by omega) (by omega)
          (fun p u hp hlt hu => ih hlt (by omega) hu)
        rcases hblock with ⟨b,q,hok,hq,hqle,hrest⟩ | ⟨p,herr,hp,hrest⟩
        · left
          refine ⟨f a b,q,by rw [bind_ok hok]; rfl,by omega,hqle,fun depth => ?_⟩
          rw [hwant]
          exact hrest depth
        · right
          refine ⟨p,bind_error herr,hp,fun depth => ?_⟩
          rw [hwant]
          exact hrest depth
      · right
        obtain ⟨p,hp,hpl⟩ := (hm pos).2 (by omega)
        refine ⟨p,bind_error hp,by omega,fun depth => ?_⟩
        rw [hwant,List.drop_eq_nil_of_le (by omega)]
        exact complete_nil_owed _ 0

theorem programLoop_agrees (h : EndsInEof toks types) (fuel : ℕ) {pos : ℕ} (hpos : pos ≤ types.length + 1)
    (hfuel : types.length + 1 ≤ fuel + pos) (hone : 1 ≤ fuel) :
    (∃ body q, programLoop toks (parseStmt toks toks.length) fuel pos = .ok (body, q) ∧
      remaining types pos 0 = true) ∨
    (∃ p, programLoop toks (parseStmt toks toks.length) fuel pos = .error (.pastEnd p) ∧ toks.length ≤ p ∧
      remaining types pos 0 = false) := by
  have hlen := h.length
  induction fuel generalizing pos with
  | zero => omega
  | succ fuel ih =>
    by_cases hend : pos = types.length + 1
    · right
      refine ⟨pos,?_,by omega,remaining_past (by omega) _⟩
      rw [programLoop,bind_error (checkType_error (by omega) _)]
    have hle : pos ≤ types.length := by omega
    obtain ⟨t,ht,heof,hdrop⟩ := h.token hle
    rw [programLoop,bind_ok (checkType_ok ht _)]
    by_cases hlast : pos = types.length
    · left
      refine ⟨[],pos,?_,?_⟩
      · simp only [heof.mpr hlast,beq_self_eq_true,↓reduceIte]
        rfl
      · rw [remaining_of_le hle,hlast,List.drop_length]
        rfl
    have hlt : pos < types.length := by omega
    have hneof : (t.type == TokenType.eof) = false := by simpa using fun he => hlast (heof.mp he)
    have hnext : remaining types pos 0 = wanted types pos t.type 0 := by
      rw [remaining_of_le hle,hdrop hlt]
      simp [complete,wanted]
    simp only [hneof,Bool.false_eq_true,↓reduceIte]
    rw [bind_ok (checkType_ok ht _)]
    by_cases hdirective : t.type = .directive
    · obtain ⟨a,ha⟩ := (takes_advance toks pos).1 (by omega)
      have hskip : remaining types pos 0 = remaining types (pos + 1) 0 := by
        rw [hnext,remaining_of_le (by omega),hdirective]
        rfl
      simp only [hdirective,beq_self_eq_true,↓reduceIte]
      rw [bind_ok ha,hskip]
      exact ih (by omega) (by omega) (by omega)
    · have hne : (t.type == TokenType.directive) = false := by simpa using hdirective
      simp only [hne,Bool.false_eq_true,↓reduceIte]
      rcases parseStmt_agrees h toks.length hlt (by omega) ht with ⟨a,q,hok,hq,hqle,hwant⟩ | ⟨p,herr,hp,hwant⟩
      · rw [bind_ok hok,hnext,hwant]
        rcases ih hqle (by omega) (by omega) with ⟨body,r,hloop,hrest⟩ | ⟨p,hloop,hp,hrest⟩
        · exact Or.inl ⟨a :: body,r,by rw [bind_ok hloop]; rfl,hrest⟩
        · exact Or.inr ⟨p,bind_error hloop,hp,hrest⟩
      · exact Or.inr ⟨p,bind_error herr,by omega,by rw [hnext,hwant]⟩

end

theorem tokenize_endsInEof (src : Bytes) : EndsInEof (tokenize src) (typesOf (tokenize src)) := by
  obtain ⟨body,last,he,hb⟩ := tokenize_eof src
  have htypes : typesOf (tokenize src) = body.map Token.type := by
    rw [typesOf,he,List.dropLast_concat]
  refine ⟨?_,?_⟩
  · rw [htypes,he,List.map_append]
    rfl
  · rw [htypes]
    intro type ht
    obtain ⟨t,hm,rfl⟩ := List.mem_map.mp ht
    exact hb t hm

/-- For every text, the parser either returns a tree or reads a token at or past the
count, and it returns exactly when the text does not end inside a statement or block. -/
theorem parse_inside_iff (src : Bytes) :
    ((∃ tree, parse (tokenize src) = .ok tree) ↔ complete 0 0 (typesOf (tokenize src)) = true) ∧
    ∀ fault, parse (tokenize src) = .error fault →
      ∃ position, fault = .pastEnd position ∧ (tokenize src).length ≤ position := by
  have h := tokenize_endsInEof src
  have hrem : remaining (typesOf (tokenize src)) 0 0 = complete 0 0 (typesOf (tokenize src)) :=
    remaining_of_le (Nat.zero_le _) 0
  rcases programLoop_agrees h ((tokenize src).length + 1) (Nat.zero_le _)
    (by rw [h.length]; omega) (by omega) with ⟨body,q,hok,hall⟩ | ⟨p,herr,hp,hall⟩
  · rw [hrem] at hall
    have hparse : parse (tokenize src) = .ok ((newNode .program (str "program")).withBody (chain body)) := by
      simp only [parse,hok]
      rfl
    refine ⟨⟨fun _ => hall,fun _ => ⟨_,hparse⟩⟩,?_⟩
    intro fault hf
    rw [hparse] at hf
    cases hf
  · rw [hrem] at hall
    have hparse : parse (tokenize src) = .error (.pastEnd p) := by
      simp only [parse,herr]
      rfl
    refine ⟨⟨?_,fun hc => ?_⟩,?_⟩
    · rintro ⟨tree,ht⟩
      rw [hparse] at ht
      cases ht
    · rw [hall] at hc
      cases hc
    · intro fault hf
      rw [hparse] at hf
      cases hf
      exact ⟨p,rfl,hp⟩

/-- A lone keyword: two tokens with EOF, and the third is read. -/
theorem parse_truncated_say :
    (tokenize (str "say")).length = 2 ∧ parse (tokenize (str "say")) = .error (.pastEnd 2) := by
  decide

end QbitNova.Language
