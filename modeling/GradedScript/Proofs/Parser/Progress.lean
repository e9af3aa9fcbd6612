import GradedScript.Proofs.Parser.Soundness

/-!
# Parsers make progress, and budgets do not show

A parser that yields a result has read tokens to get it, and one that fails has stopped in front of
the token it fails at (`Moved`). So nested uses of a parser and rounds of a loop have fewer tokens
before them each time, and a budget of the number of tokens left is never used up: with any two such
budgets parsers do the same (`Coincide`). The rules below follow the steps parsers are made of, as in
`Obeys`, and end in `expression_coincide`, `statement_coincide` and `programFrom_coincide`.

At the end of the tokens there is nothing to recurse on. There all parsers of expressions and
statements fail in one way (`FailsAtEnd`), which is what they do on an empty budget too.
-/

namespace GradedScript.Parser

open Grammar

variable {α β : Type}

/-! ## Progress -/

/-- A parser has read at least `m` tokens for its result, or failed at the token it stopped at. -/
def Moved (m : Nat) (s : State) : EStateM.Result ParseError State α → Prop
  | .ok _ s' => ∃ ts, Reads s ts s' ∧ m ≤ ts.length
  | .error e s' => ∃ ts, Reads s ts s' ∧ e.token = s'.rest.headD s'.stop

/-- On at most `k` tokens two parsers do the same, and read at least `m` tokens for a result. -/
def Coincide (k m : Nat) (p q : Parser α) : Prop :=
  ∀ s, s.stop.kind = .eof → s.rest.length ≤ k → q s = p s ∧ Moved m s (p s)

/-- The same of parsers that have looked at the next token. -/
def CoincideAt (t : Token) (k m : Nat) (p q : Parser α) : Prop :=
  ∀ s, s.stop.kind = .eof → s.rest.headD s.stop = t → s.rest.length ≤ k →
    q s = p s ∧ Moved m s (p s)

/-- At the end of the tokens a parser asks for an expression. -/
def FailsAtEnd (p : Parser α) : Prop :=
  ∀ s : State, s.rest = [] → s.stop.kind = .eof → p s = .error ⟨.expected .expression, s.stop⟩ s

/-- At the end of the tokens a parser has its result. -/
def YieldsAtEnd (a : α) (p : Parser α) : Prop :=
  ∀ s : State, s.rest = [] → p s = .ok a s

section

variable {k l m : Nat} {p q : Parser α} {f g : α → Parser β} {t : Token}

theorem Moved.mono {s : State} {r : EStateM.Result ParseError State α} (h : Moved m s r)
    (hl : l ≤ m) : Moved l s r := by
  cases r with
  | ok a s' =>
    obtain ⟨ts, hreads, hm⟩ := h
    exact ⟨ts, hreads, Nat.le_trans hl hm⟩
  | error e s' => exact h

/-- What is moved after some tokens were read is moved altogether. -/
theorem Moved.after {s s' : State} {ts : List Token} {r : EStateM.Result ParseError State α}
    (hreads : Reads s ts s') (h : Moved l s' r) (hm : m ≤ ts.length + l) : Moved m s r := by
  cases r with
  | ok a s'' =>
    obtain ⟨us, hreads', hl⟩ := h
    refine ⟨ts ++ us, hreads.trans hreads', ?_⟩
    rw [List.length_append]
    omega
  | error e s'' =>
    obtain ⟨us, hreads', htoken⟩ := h
    exact ⟨ts ++ us, hreads.trans hreads', htoken⟩

theorem Reads.length_eq {s s' : State} {ts : List Token} (h : Reads s ts s') :
    s.rest.length = ts.length + s'.rest.length := by
  rw [h.rest, List.length_append]

namespace Coincide

theorem mono {j : Nat} (h : Coincide k m p q) (hj : j ≤ k) (hl : l ≤ m) : Coincide j l p q := by
  intro s hs hlen
  obtain ⟨heq, hmoved⟩ := h s hs (Nat.le_trans hlen hj)
  exact ⟨heq, hmoved.mono hl⟩

theorem here (h : Coincide k m p q) : CoincideAt t k m p q :=
  fun s hs _ hlen => h s hs hlen

theorem pure (a : α) : Coincide k 0 (pure a) (pure a) :=
  fun s _ _ => ⟨rfl, [], .refl s, Nat.le_refl 0⟩

/-- Two parsers one after the other; the second has before it what the first has left. -/
theorem bind (hp : Coincide k m p q) (hf : ∀ j, j + m ≤ k → ∀ a, Coincide j l (f a) (g a))
    {i : Nat} (hi : i ≤ m + l) : Coincide k i (p >>= f) (q >>= g) := by
  intro s hs hlen
  obtain ⟨heq, hmoved⟩ := hp s hs hlen
  show EStateM.bind q g s = EStateM.bind p f s ∧ Moved _ s (EStateM.bind p f s)
  unfold EStateM.bind
  rw [heq]
  revert hmoved
  cases p s with
  | error e s' => exact fun hmoved => ⟨rfl, hmoved⟩
  | ok a s' =>
    rintro ⟨ts, hreads, hm⟩
    have hleft := hreads.length_eq
    obtain ⟨heq', hmoved'⟩ :=
      hf s'.rest.length (by omega) a s' (by rw [hreads.stop]; exact hs) (Nat.le_refl _)
    exact ⟨heq', hmoved'.after hreads (by omega)⟩

theorem any (h : Coincide k m p q) : Coincide k 0 p q :=
  h.mono k.le_refl (Nat.zero_le m)

/-- Two parsers one after the other, of which the first reads enough. -/
theorem seq (hp : Coincide k m p q) (hf : ∀ a, Coincide k 0 (f a) (g a)) :
    Coincide k m (p >>= f) (q >>= g) :=
  hp.bind (fun _ hj a => (hf a).mono (by omega) (Nat.le_refl 0)) (Nat.le_refl m)

/-- Two parsers one after the other, of which the second reads enough. -/
theorem look (hp : Coincide k 0 p q) (hf : ∀ a, Coincide k m (f a) (g a)) :
    Coincide k m (p >>= f) (q >>= g) :=
  hp.bind (fun _ hj a => (hf a).mono (by omega) (Nat.le_refl m)) (Nat.le_add_left m 0)

/-- Before no tokens, parsers that fail at the end coincide. -/
theorem of_failsAtEnd (hp : FailsAtEnd p) (hq : FailsAtEnd q) : Coincide 0 m p q := by
  intro s hs hlen
  have hrest : s.rest = [] := List.length_eq_zero_iff.1 (Nat.le_zero.1 hlen)
  rw [hp s hrest hs, hq s hrest hs]
  refine ⟨rfl, [], .refl s, ?_⟩
  rw [hrest]
  rfl

/-- Before no tokens, parsers that have their result coincide. -/
theorem of_yieldsAtEnd {a : α} (hp : YieldsAtEnd a p) (hq : YieldsAtEnd a q) :
    Coincide 0 0 p q := by
  intro s _ hlen
  have hrest : s.rest = [] := List.length_eq_zero_iff.1 (Nat.le_zero.1 hlen)
  rw [hp s hrest, hq s hrest]
  exact ⟨rfl, [], .refl s, Nat.le_refl 0⟩

end Coincide

theorem FailsAtEnd.bind (hp : FailsAtEnd p) (f : α → Parser β) : FailsAtEnd (p >>= f) := by
  intro s hrest hs
  show EStateM.bind p f s = _
  rw [EStateM.bind, hp s hrest hs]

/-! ## Primitive steps

These have no budget and coincide with themselves. What there is to say of them is how many tokens
they read at least. -/

theorem peek_atEnd {f : Token → Parser α} {s : State} (hrest : s.rest = []) :
    (peek >>= f) s = f s.stop s := by
  show f (s.rest.headD s.stop) s = _
  rw [hrest]
  rfl

/-- A parser that has its result unless a token can be read has it at the end. -/
theorem acceptIf_then_atEnd {r : Kind → Bool} {f : Option Token → Parser α} {a : α}
    (h : f none = pure a) : YieldsAtEnd a (acceptIf r >>= f) := by
  intro s hrest
  show EStateM.bind (acceptIf r) f s = _
  rw [EStateM.bind, acceptIf, hrest]
  dsimp only
  rw [h]
  rfl

theorem peek_then_coincide {f g : Token → Parser α} (h : ∀ t, CoincideAt t k m (f t) (g t)) :
    Coincide k m (peek >>= f) (peek >>= g) :=
  fun s hs hlen => h (s.rest.headD s.stop) s hs rfl hlen

theorem failAt_coincide (fault : ParseFault) :
    CoincideAt t k m (failAt t fault : Parser α) (failAt t fault) :=
  fun s _ ht _ => ⟨rfl, [], .refl s, ht.symm⟩

/-- A parser that passes over the token it has looked at. -/
theorem skip_then_coincide (ht : t.kind ≠ .eof) (h : ∀ j, j + 1 ≤ k → Coincide j m p q) :
    CoincideAt t k (m + 1) (skip >>= fun _ => p) (skip >>= fun _ => q) := by
  intro s hs hnext hlen
  cases hrest : s.rest with
  | nil =>
    -- at the end it were the end token
    rw [hrest] at hnext
    exact absurd (hnext ▸ hs) ht
  | cons t' ts =>
    rw [hrest, List.length_cons] at hlen
    obtain ⟨heq, hmoved⟩ := h ts.length hlen { s with rest := ts } hs (Nat.le_refl _)
    have hskip : ∀ r : Parser α, (skip >>= fun _ => r) s = r { s with rest := ts } := by
      intro r
      show r { s with rest := s.rest.tail } = _
      rw [hrest]
      rfl
    have hreads : Reads s [t'] { s with rest := ts } := ⟨hrest, rfl, rfl, rfl, List.prefix_rfl⟩
    rw [hskip, hskip]
    exact ⟨heq, hmoved.after hreads (Nat.le_of_eq (Nat.add_comm m 1))⟩

theorem report_coincide (token : Token) (fault : ParseFault) :
    Coincide k 0 (report token fault) (report token fault) := by
  intro s _ _
  refine ⟨rfl, [], ⟨rfl, rfl, rfl, rfl, ?_⟩, Nat.le_refl 0⟩
  rw [Array.toList_push]
  exact List.prefix_append _ _

theorem nextIs_coincide (kind : Kind) : Coincide k 0 (nextIs kind) (nextIs kind) := by
  intro s _ _
  unfold nextIs
  split <;> exact ⟨rfl, [], .refl s, Nat.le_refl 0⟩

/-- A parser that asks whether all tokens are read, and goes on knowing it. -/
theorem atEnd_then_coincide {f g : Bool → Parser α} (hend : Coincide k m (f true) (g true))
    (hmore : ∀ s, s.stop.kind = .eof → s.rest ≠ [] → s.rest.length ≤ k →
      g false s = f false s ∧ Moved m s (f false s)) :
    Coincide k m (atEnd >>= f) (atEnd >>= g) := by
  intro s hs hlen
  show g s.rest.isEmpty s = f s.rest.isEmpty s ∧ Moved m s (f s.rest.isEmpty s)
  cases hrest : s.rest with
  | nil => exact hend s hs hlen
  | cons t ts => exact hmore s hs (by simp [hrest]) hlen

theorem get_coincide : Coincide k 0 (get : Parser State) get :=
  fun s _ _ => ⟨rfl, [], .refl s, Nat.le_refl 0⟩

/-- A parser that may read a token, and goes on knowing whether it did. -/
theorem acceptIf_then_coincide {r : Kind → Bool} {f g : Option Token → Parser α}
    (hsome : ∀ j, j + 1 ≤ k → ∀ t, Coincide j (m - 1) (f (some t)) (g (some t)))
    (hnone : Coincide k m (f none) (g none)) :
    Coincide k m (acceptIf r >>= f) (acceptIf r >>= g) := by
  intro s hs hlen
  show EStateM.bind (acceptIf r) g s = EStateM.bind (acceptIf r) f s ∧
    Moved m s (EStateM.bind (acceptIf r) f s)
  unfold EStateM.bind acceptIf
  cases hrest : s.rest with
  | nil => exact hnone s hs hlen
  | cons t ts =>
    dsimp only
    cases r t.kind with
    | true =>
      rw [hrest, List.length_cons] at hlen
      obtain ⟨heq, hmoved⟩ := hsome ts.length hlen t { s with rest := ts } hs (Nat.le_refl _)
      have hreads : Reads s [t] { s with rest := ts } := ⟨hrest, rfl, rfl, rfl, List.prefix_rfl⟩
      exact ⟨heq, hmoved.after hreads (by rw [List.length_singleton]; omega)⟩
    | false => exact hnone s hs hlen

theorem expect_coincide (kind : Kind) (what : Expectation) :
    Coincide k 1 (expect kind what) (expect kind what) :=
  acceptIf_then_coincide (fun _ _ t => .pure t) (peek_then_coincide fun _ => failAt_coincide _)

/-! ## Nesting and recovery

A parser that fails may have read nothing. Recovery passes over a token then, so that reading goes
on. -/

theorem insideLoop_coincide (h : Coincide k m p q) :
    Coincide k m (insideLoop p) (insideLoop q) := by
  intro s hs hlen
  obtain ⟨heq, hmoved⟩ := h { s with loopDepth := s.loopDepth + 1 } hs hlen
  unfold insideLoop
  rw [heq]
  refine ⟨rfl, ?_⟩
  revert hmoved
  cases p { s with loopDepth := s.loopDepth + 1 } with
  | error e s' =>
    rintro ⟨ts, hreads, htoken⟩
    exact ⟨ts, { hreads with loopDepth := congrArg (· - 1) hreads.loopDepth }, htoken⟩
  | ok a s' =>
    rintro ⟨ts, hreads, hm⟩
    exact ⟨ts, { hreads with loopDepth := congrArg (· - 1) hreads.loopDepth }, hm⟩

theorem insideFunction_coincide (h : Coincide k m p q) :
    Coincide k m (insideFunction p) (insideFunction q) := by
  intro s hs hlen
  obtain ⟨heq, hmoved⟩ := h { s with loopDepth := 0, functionDepth := s.functionDepth + 1 } hs hlen
  unfold insideFunction
  dsimp only
  rw [heq]
  refine ⟨rfl, ?_⟩
  revert hmoved
  cases p { s with loopDepth := 0, functionDepth := s.functionDepth + 1 } with
  | error e s' =>
    rintro ⟨ts, hreads, htoken⟩
    exact ⟨ts, { hreads with
      loopDepth := rfl, functionDepth := congrArg (· - 1) hreads.functionDepth }, htoken⟩
  | ok a s' =>
    rintro ⟨ts, hreads, hm⟩
    exact ⟨ts, { hreads with
      loopDepth := rfl, functionDepth := congrArg (· - 1) hreads.functionDepth }, hm⟩

/-- A state from which a parser goes on has fewer tokens, unless there were none. -/
structure Advances (s s' : State) : Prop where
  reads : ∃ ts, Reads s ts s'
  shorter : s.rest ≠ [] → s'.rest.length < s.rest.length

/-- On at most `k` tokens two parsers do the same; they never fail, and pass over a token if there is
one. -/
def Persist (k : Nat) (d d' : Parser (Option Stmt)) : Prop :=
  ∀ s, s.stop.kind = .eof → s.rest.length ≤ k →
    d' s = d s ∧ ∃ a s', d s = .ok a s' ∧ Advances s s'

theorem Persist.mono {j : Nat} {d d' : Parser (Option Stmt)} (h : Persist k d d') (hj : j ≤ k) :
    Persist j d d' :=
  fun s hs hlen => h s hs (Nat.le_trans hlen hj)

theorem resync_length_lt {ts : List Token} (h : ts ≠ []) : (resync ts).length < ts.length := by
  cases ts with
  | nil => exact absurd rfl h
  | cons t ts => exact Nat.lt_succ_of_le (boundaryAfter_suffix t ts).length_le

/-- A parser that reads something for a result and recovers from its failures goes on and on. -/
theorem recovering_persist {p q : Parser Stmt} (h : Coincide k 1 p q) :
    Persist k (recovering p) (recovering q) := by
  intro s hs hlen
  obtain ⟨heq, hmoved⟩ := h s hs hlen
  unfold recovering
  rw [heq]
  refine ⟨rfl, ?_⟩
  revert hmoved
  cases p s with
  | ok a s' =>
    rintro ⟨ts, hreads, hm⟩
    have hleft := hreads.length_eq
    exact ⟨some a, s', rfl, ⟨ts, hreads⟩, fun _ => by omega⟩
  | error e s' =>
    rintro ⟨ts, hreads, -⟩
    obtain ⟨us, hus⟩ := resync_suffix s'.rest
    have hleft := hreads.length_eq
    refine ⟨none, _, rfl, ⟨ts ++ us, ?_, hreads.stop, hreads.loopDepth, hreads.functionDepth, ?_⟩,
      fun hne => ?_⟩
    · rw [hreads.rest, List.append_assoc, hus]
    · rw [Array.toList_push]
      exact hreads.errors.trans (List.prefix_append _ _)
    · show (resync s'.rest).length < s.rest.length
      rcases List.eq_nil_or_concat s'.rest with hnil | ⟨_, _, hcons⟩
      · rw [hnil]
        exact List.length_pos_iff.2 hne
      · have hne' : s'.rest ≠ [] := by simp [hcons]
        have hlt := resync_length_lt hne'
        omega

end

/-! ## Expressions

Each nested use of a parser comes behind a token, so it has one token less in front of it than its
budget was made for. -/

section

variable {expression expression' : Parser Expr} {k n n' budget budget' : Nat} {t : Token}

theorem literal_coincide (ht : t.kind ≠ .eof) (value : Literal) :
    CoincideAt t k 1 (literal t value) (literal t value) :=
  skip_then_coincide ht fun _ _ => .pure _

theorem primary_coincide (he : ∀ j, j + 1 ≤ k → Coincide j 1 expression expression') :
    Coincide k 1 (primary expression) (primary expression') := by
  refine peek_then_coincide fun t => ?_
  generalize hkind : t.kind = kind
  cases kind
  case kwFalse | kwTrue | kwNil => exact literal_coincide (by simp [hkind]) _
  case number | string =>
    dsimp only
    cases t.literal with
    | none => exact failAt_coincide _
    | some value => exact literal_coincide (by simp [hkind]) value
  case leftParen =>
    refine skip_then_coincide (by simp [hkind]) fun j hj => (he j hj).any.seq fun e => ?_
    exact (expect_coincide _ _).any.seq fun _ => .pure _
  case identifier => exact skip_then_coincide (by simp [hkind]) fun _ _ => .pure _
  all_goals exact failAt_coincide _

/-- One item of a list and what comes after it. -/
theorem item_then_coincide {item item' : Parser α} {more more' : Parser (List α)}
    (hitem : Coincide k 1 item item') (hmore : ∀ j, j + 2 ≤ k → Coincide j 0 more more') :
    Coincide k 1
      (do let x ← item
          match ← accept .comma with
          | some _ => return x :: (← more)
          | none => return [x])
      (do let x ← item'
          match ← accept .comma with
          | some _ => return x :: (← more')
          | none => return [x]) := by
  refine hitem.bind (l := 0) (fun i hi x => ?_) (Nat.le_refl 1)
  refine acceptIf_then_coincide (fun j hj _ => ?_) (.pure [x])
  exact (hmore j (by omega)).seq fun xs => .pure (x :: xs)

theorem separated_coincide {item item' : Parser α} (hitem : Coincide k 1 item item')
    (tooMany : ParseFault) (count : Nat) (hn : k < n) (hn' : k < n') :
    Coincide k 1 (separated item tooMany n count) (separated item' tooMany n' count) := by
  induction n generalizing k n' count with
  | zero => omega
  | succ n ih =>
    cases n' with
    | zero => omega
    | succ n' =>
      have hmore : ∀ j, j + 2 ≤ k → Coincide j 0 (separated item tooMany n (count + 1))
          (separated item' tooMany n' (count + 1)) := fun j hj =>
        (ih (hitem.mono (by omega) (Nat.le_refl 1)) (count + 1) (by omega) (by omega)).any
      have hread := item_then_coincide hitem hmore
      rw [separated, separated]
      dsimp only
      split
      · exact peek_then_coincide fun t => ((report_coincide t _).look fun _ => hread).here
      · exact hread

/-- Lists of arguments and of parameters. -/
theorem listed_coincide {item item' : Parser α} (hitem : Coincide k 1 item item')
    (tooMany : ParseFault) (hn : k < n) (hn' : k < n') :
    Coincide k 0 (listed item tooMany n) (listed item' tooMany n') := by
  refine (nextIs_coincide _).seq fun isNext => ?_
  split
  · exact .pure []
  · exact (separated_coincide hitem tooMany 0 hn hn').any

theorem callsFrom_atEnd (callee : Expr) :
    YieldsAtEnd callee (callsFrom expression budget n callee) := by
  cases n with
  | zero => exact fun _ _ => rfl
  | succ n => exact acceptIf_then_atEnd rfl

theorem callsFrom_coincide (he : ∀ j, j + 1 ≤ k → Coincide j 1 expression expression')
    (hb : k ≤ budget) (hb' : k ≤ budget') (hn : k ≤ n) (hn' : k ≤ n') (callee : Expr) :
    Coincide k 0 (callsFrom expression budget n callee)
      (callsFrom expression' budget' n' callee) := by
  induction k generalizing n n' callee with
  | zero => exact .of_yieldsAtEnd (callsFrom_atEnd callee) (callsFrom_atEnd callee)
  | succ k ih =>
    obtain ⟨n, rfl⟩ := Nat.exists_eq_add_one_of_ne_zero (Nat.ne_zero_of_lt hn)
    obtain ⟨n', rfl⟩ := Nat.exists_eq_add_one_of_ne_zero (Nat.ne_zero_of_lt hn')
    refine acceptIf_then_coincide (fun j hj _ => ?_) (.pure callee)
    refine (listed_coincide (he j hj) _ (by omega) (by omega)).seq fun es => ?_
    refine (expect_coincide _ _).any.seq fun paren => ?_
    have hmore := ih (fun i hi => he i (by omega)) (by omega) (by omega) (Nat.le_of_succ_le_succ hn)
      (Nat.le_of_succ_le_succ hn') (.call callee paren es)
    exact hmore.mono (Nat.le_of_succ_le_succ hj) (Nat.le_refl 0)

theorem call_coincide (he : ∀ j, j + 1 ≤ k → Coincide j 1 expression expression')
    (hb : k ≤ budget) (hb' : k ≤ budget') :
    Coincide k 1 (call expression budget) (call expression' budget') :=
  (primary_coincide he).seq fun callee => callsFrom_coincide he hb hb' hb hb' callee

theorem primary_failsAtEnd : FailsAtEnd (primary expression) := by
  intro s hrest hs
  rw [primary, peek_atEnd hrest, hs]
  rfl

theorem unaryFrom_failsAtEnd : FailsAtEnd (unaryFrom expression budget n) := by
  have hcall : FailsAtEnd (call expression budget) := primary_failsAtEnd.bind _
  cases n with
  | zero => exact hcall
  | succ n =>
    intro s hrest hs
    rw [← hcall s hrest hs]
    show EStateM.bind (acceptIf isUnary) _ s = _
    rw [EStateM.bind, acceptIf, hrest]

theorem tier_failsAtEnd (level : Level) : FailsAtEnd (tier expression budget level) := by
  induction level using Level.tighter_induction with
  | unary => exact unaryFrom_failsAtEnd
  | looser level hlevel ih =>
    rw [tier_eq_chain _ _ hlevel]
    exact ih.bind _

theorem unaryFrom_coincide (he : ∀ j, j + 1 ≤ k → Coincide j 1 expression expression')
    (hb : k ≤ budget) (hb' : k ≤ budget') (hn : k ≤ n) (hn' : k ≤ n') :
    Coincide k 1 (unaryFrom expression budget n) (unaryFrom expression' budget' n') := by
  induction k generalizing n n' with
  | zero => exact .of_failsAtEnd unaryFrom_failsAtEnd unaryFrom_failsAtEnd
  | succ k ih =>
    obtain ⟨n, rfl⟩ := Nat.exists_eq_add_one_of_ne_zero (Nat.ne_zero_of_lt hn)
    obtain ⟨n', rfl⟩ := Nat.exists_eq_add_one_of_ne_zero (Nat.ne_zero_of_lt hn')
    refine acceptIf_then_coincide (fun j hj operator => ?_) (call_coincide he hb hb')
    have hmore := ih (fun i hi => he i (by omega)) (by omega) (by omega) (Nat.le_of_succ_le_succ hn)
      (Nat.le_of_succ_le_succ hn')
    exact (hmore.mono (Nat.le_of_succ_le_succ hj) (Nat.zero_le 1)).seq fun e => .pure _

section

variable {isOperator : Kind → Bool} {build : Expr → Token → Expr → Expr}
  {operand operand' : Parser Expr}

theorem chainFrom_atEnd (left : Expr) :
    YieldsAtEnd left (chainFrom isOperator build operand n left) := by
  cases n with
  | zero => exact fun _ _ => rfl
  | succ n => exact acceptIf_then_atEnd rfl

theorem chainFrom_coincide (ho : Coincide k 1 operand operand') (hn : k ≤ n) (hn' : k ≤ n')
    (left : Expr) :
    Coincide k 0 (chainFrom isOperator build operand n left)
      (chainFrom isOperator build operand' n' left) := by
  induction k generalizing n n' left with
  | zero => exact .of_yieldsAtEnd (chainFrom_atEnd left) (chainFrom_atEnd left)
  | succ k ih =>
    obtain ⟨n, rfl⟩ := Nat.exists_eq_add_one_of_ne_zero (Nat.ne_zero_of_lt hn)
    obtain ⟨n', rfl⟩ := Nat.exists_eq_add_one_of_ne_zero (Nat.ne_zero_of_lt hn')
    refine acceptIf_then_coincide (fun j hj operator => ?_) (.pure left)
    refine (ho.mono (by omega) (Nat.zero_le 1)).seq fun right => ?_
    have hmore := ih (ho.mono k.le_succ (Nat.le_refl 1)) (Nat.le_of_succ_le_succ hn)
      (Nat.le_of_succ_le_succ hn') (build left operator right)
    exact hmore.mono (Nat.le_of_succ_le_succ hj) (Nat.le_refl 0)

end

theorem tier_coincide (he : ∀ j, j + 1 ≤ k → Coincide j 1 expression expression')
    (hb : k ≤ budget) (hb' : k ≤ budget') (level : Level) :
    Coincide k 1 (tier expression budget level) (tier expression' budget' level) := by
  induction level using Level.tighter_induction with
  | unary => exact unaryFrom_coincide he hb hb' hb hb'
  | looser level hlevel ih =>
    rw [tier_eq_chain _ _ hlevel, tier_eq_chain _ _ hlevel]
    exact ih.seq fun left => chainFrom_coincide ih hb hb' left

theorem assignment_coincide (he : ∀ j, j + 1 ≤ k → Coincide j 1 expression expression')
    (hb : k ≤ budget) (hb' : k ≤ budget') :
    Coincide k 1 (assignment expression budget) (assignment expression' budget') := by
  refine (tier_coincide he hb hb' .disjunction).seq fun target => ?_
  refine acceptIf_then_coincide (fun j hj equals => ?_) (.pure target)
  refine (he j hj).any.seq fun value => ?_
  cases target with
  | var name => exact .pure _
  | _ => exact (report_coincide equals _).seq fun _ => .pure _

end

/-- At the end of the tokens it does not matter that the budget may be used up. -/
theorem expression_failsAtEnd (n : Nat) : FailsAtEnd (expression n) := by
  cases n with
  | zero =>
    intro s hrest _
    exact peek_atEnd hrest
  | succ n => exact (tier_failsAtEnd .disjunction).bind _

/-- With any budget of at least the tokens left, an expression is read in the same way. -/
theorem expression_coincide {k n n' : Nat} (hn : k ≤ n) (hn' : k ≤ n') :
    Coincide k 1 (expression n) (expression n') := by
  induction n generalizing k n' with
  | zero =>
    obtain rfl := Nat.le_zero.1 hn
    exact .of_failsAtEnd (expression_failsAtEnd _) (expression_failsAtEnd _)
  | succ n ih =>
    cases n' with
    | zero =>
      obtain rfl := Nat.le_zero.1 hn'
      exact .of_failsAtEnd (expression_failsAtEnd _) (expression_failsAtEnd _)
    | succ n' => exact assignment_coincide (fun j hj => ih (by omega) (by omega)) hn hn'

/-! ## Statements -/

section

variable {statement statement' : Parser Stmt} {block block' : Parser (List Stmt)}
  {declaration declaration' : Parser (Option Stmt)} {k n n' : Nat} {t : Token}

theorem funDeclaration_coincide (hb : Coincide k 0 block block') (hn : k < n) (hn' : k < n') :
    Coincide k 1 (funDeclaration block n) (funDeclaration block' n') := by
  refine (expect_coincide _ _).seq fun name => (expect_coincide _ _).any.seq fun _ => ?_
  refine (listed_coincide (expect_coincide _ _) _ hn hn').seq fun params => ?_
  refine (expect_coincide _ _).any.seq fun _ => ?_
  refine (expect_coincide _ _).any.seq fun _ => (insideFunction_coincide hb).seq fun body => ?_
  exact .pure _

theorem varDeclaration_coincide (hn : k ≤ n) (hn' : k ≤ n') :
    Coincide k 1 (varDeclaration n) (varDeclaration n') := by
  refine (expect_coincide _ _).seq fun name => acceptIf_then_coincide (fun j hj _ => ?_) ?_
  · dsimp only
    rw [bind_map_left, bind_map_left]
    refine (expression_coincide (k := j) (by omega) (by omega)).any.seq fun e => ?_
    exact (expect_coincide _ _).any.seq fun _ => .pure _
  · exact (expect_coincide _ _).any.seq fun _ => .pure _

theorem closed_coincide (make : Expr → Stmt) (what : Expectation) (hn : k ≤ n) (hn' : k ≤ n') :
    Coincide k 1 (closed make what n) (closed make what n') :=
  (expression_coincide hn hn').seq fun _ => (expect_coincide _ _).any.seq fun _ => .pure _

theorem breakStatement_coincide : Coincide k 0 (breakStatement t) (breakStatement t) := by
  have hrest : Coincide k 0
      (do let _ ← expect .semicolon .semicolonAfterBreak; return Stmt.breakOut t)
      (do let _ ← expect .semicolon .semicolonAfterBreak; return Stmt.breakOut t) :=
    (expect_coincide _ _).any.seq fun _ => .pure _
  refine get_coincide.seq fun s => ?_
  split
  · exact (report_coincide t _).seq fun _ => hrest
  · exact hrest

theorem expressionUnless_coincide (kind : Kind) (hn : k ≤ n) (hn' : k ≤ n') :
    Coincide k 0 (expressionUnless kind n) (expressionUnless kind n') := by
  refine (nextIs_coincide _).seq fun isNext => ?_
  split
  · exact .pure none
  · exact (expression_coincide hn hn').any.seq fun e => .pure (some e)

theorem forInitializer_coincide (hn : k ≤ n) (hn' : k ≤ n') :
    Coincide k 0 (forInitializer n) (forInitializer n') := by
  refine acceptIf_then_coincide (fun _ _ _ => .pure none) ?_
  refine acceptIf_then_coincide (fun j hj _ => ?_) ?_
  · exact (varDeclaration_coincide (by omega) (by omega)).any.seq fun s => .pure (some s)
  · exact (closed_coincide _ _ hn hn').any.seq fun s => .pure (some s)

theorem forStatement_coincide (hs : Coincide k 1 statement statement') (hn : k ≤ n)
    (hn' : k ≤ n') :
    Coincide k 0 (forStatement statement n t) (forStatement statement' n' t) := by
  refine (expect_coincide _ _).any.seq fun _ => (forInitializer_coincide hn hn').seq fun init => ?_
  refine (expressionUnless_coincide _ hn hn').seq fun condition => ?_
  refine (expect_coincide _ _).any.seq fun _ => ?_
  refine (expressionUnless_coincide _ hn hn').seq fun increment => ?_
  refine (expect_coincide _ _).any.seq fun _ => ?_
  exact (insideLoop_coincide hs).any.seq fun body => .pure _

theorem ifStatement_coincide (hs : Coincide k 1 statement statement') (hn : k ≤ n)
    (hn' : k ≤ n') : Coincide k 0 (ifStatement statement n) (ifStatement statement' n') := by
  refine (expect_coincide _ _).any.seq fun _ => (expression_coincide hn hn').any.seq fun e => ?_
  refine (expect_coincide _ _).any.seq fun _ => hs.any.seq fun yes => ?_
  refine acceptIf_then_coincide (fun j hj _ => ?_) (.pure _)
  exact (hs.mono (by omega) (Nat.zero_le 1)).seq fun no => .pure _

theorem returnStatement_coincide (hn : k ≤ n) (hn' : k ≤ n') :
    Coincide k 0 (returnStatement n t) (returnStatement n' t) := by
  have hrest : Coincide k 0
      (do let value ← expressionUnless .semicolon n
          let _ ← expect .semicolon .semicolonAfterReturn
          return Stmt.giveBack t value)
      (do let value ← expressionUnless .semicolon n'
          let _ ← expect .semicolon .semicolonAfterReturn
          return Stmt.giveBack t value) :=
    (expressionUnless_coincide _ hn hn').seq fun _ => (expect_coincide _ _).any.seq fun _ => .pure _
  refine get_coincide.seq fun s => ?_
  split
  · exact (report_coincide t _).seq fun _ => hrest
  · exact hrest

theorem whileStatement_coincide (hs : Coincide k 1 statement statement') (hn : k ≤ n)
    (hn' : k ≤ n') :
    Coincide k 0 (whileStatement statement n) (whileStatement statement' n') := by
  refine (expect_coincide _ _).any.seq fun _ => (expression_coincide hn hn').any.seq fun e => ?_
  refine (expect_coincide _ _).any.seq fun _ => ?_
  exact (insideLoop_coincide hs).any.seq fun body => .pure _

/-- A declaration where there is a token, and what comes after it. -/
theorem persist_then {f g : Option Stmt → Parser α} (hd : Persist (k + 1) declaration declaration')
    (hf : ∀ a, Coincide k 0 (f a) (g a)) {s : State} (hs : s.stop.kind = .eof)
    (hne : s.rest ≠ []) (hlen : s.rest.length ≤ k + 1) :
    (declaration' >>= g) s = (declaration >>= f) s ∧ Moved 0 s ((declaration >>= f) s) := by
  obtain ⟨heq, a, s', hok, ⟨ts, hreads⟩, hshorter⟩ := hd s hs hlen
  have hlt := hshorter hne
  obtain ⟨heq', hmoved⟩ := hf a s' (by rw [hreads.stop]; exact hs) (by omega)
  show EStateM.bind declaration' g s = EStateM.bind declaration f s ∧
    Moved 0 s (EStateM.bind declaration f s)
  unfold EStateM.bind
  rw [heq, hok]
  exact ⟨heq', hmoved.after hreads (Nat.zero_le _)⟩

theorem declarations_atEnd : YieldsAtEnd [] (declarations declaration n) := by
  intro s hrest
  cases n with
  | zero => rfl
  | succ n => simp [declarations, bind, EStateM.bind, nextIs, atEnd, hrest, pure, EStateM.pure]

theorem declarations_coincide (hd : Persist k declaration declaration') (hn : k ≤ n)
    (hn' : k ≤ n') : Coincide k 0 (declarations declaration n) (declarations declaration' n') := by
  induction k generalizing n n' with
  | zero => exact .of_yieldsAtEnd declarations_atEnd declarations_atEnd
  | succ k ih =>
    obtain ⟨n, rfl⟩ := Nat.exists_eq_add_one_of_ne_zero (Nat.ne_zero_of_lt hn)
    obtain ⟨n', rfl⟩ := Nat.exists_eq_add_one_of_ne_zero (Nat.ne_zero_of_lt hn')
    refine (nextIs_coincide _).seq fun isNext => atEnd_then_coincide ?_ fun s hs hne hlen => ?_
    · rw [if_pos (Bool.or_true isNext), if_pos (Bool.or_true isNext)]
      exact .pure []
    · cases isNext with
      | true => exact ⟨rfl, [], .refl s, Nat.le_refl 0⟩
      | false =>
        refine persist_then hd (fun a => ?_) hs hne hlen
        have hmore := ih (hd.mono k.le_succ) (Nat.le_of_succ_le_succ hn)
          (Nat.le_of_succ_le_succ hn')
        exact hmore.seq fun ss => .pure (consOption a ss)

theorem block_coincide (hd : Persist k declaration declaration') (hn : k ≤ n) (hn' : k ≤ n') :
    Coincide k 0 (Parser.block declaration n) (Parser.block declaration' n') :=
  (declarations_coincide hd hn hn').seq fun _ => (expect_coincide _ _).any.seq fun _ => .pure _

theorem programFrom_atEnd : YieldsAtEnd [] (programFrom declaration n) := by
  intro s hrest
  cases n with
  | zero => rfl
  | succ n => simp [programFrom, bind, EStateM.bind, atEnd, hrest, pure, EStateM.pure]

/-- A declaration where there is a token, and the program after it. -/
theorem programFrom_step {s s' : State} {a : Option Stmt} (hne : s.rest ≠ [])
    (hok : declaration s = .ok a s') :
    programFrom declaration (n + 1) s = (consOption a <$> programFrom declaration n) s' := by
  have hmore : s.rest.isEmpty = false := by simpa using hne
  simp [programFrom, bind, EStateM.bind, atEnd, hmore, hok, pure, EStateM.pure, Functor.map,
    EStateM.map]

/-- With any budgets of at least the tokens left, a program is read in the same way, to the end. -/
theorem programFrom_coincide (hd : Persist k declaration declaration') {s : State}
    (hs : s.stop.kind = .eof) (hlen : s.rest.length ≤ k) (hn : s.rest.length ≤ n)
    (hn' : s.rest.length ≤ n') :
    programFrom declaration' n' s = programFrom declaration n s ∧
      ∃ ss s', programFrom declaration n s = .ok ss s' ∧ Reads s s.rest s' := by
  induction n generalizing n' s with
  | zero =>
    have hnil : s.rest = [] := List.length_eq_zero_iff.1 (Nat.le_zero.1 hn)
    rw [programFrom_atEnd s hnil, hnil]
    exact ⟨rfl, [], s, rfl, .refl s⟩
  | succ n ih =>
    by_cases hne : s.rest = []
    · rw [programFrom_atEnd s hne, programFrom_atEnd s hne, hne]
      exact ⟨rfl, [], s, rfl, .refl s⟩
    have hpos : 0 < s.rest.length := List.length_pos_iff.2 hne
    obtain ⟨n', rfl⟩ := Nat.exists_eq_add_one_of_ne_zero (show n' ≠ 0 by omega)
    obtain ⟨heq, a, s', hok, ⟨ts, hreads⟩, hshorter⟩ := hd s hs hlen
    have hlt := hshorter hne
    have hn₁ : s'.rest.length ≤ n' := by omega
    have hs' : s'.stop.kind = .eof := by
      rw [hreads.stop]
      exact hs
    obtain ⟨heq', ss, s'', hok', hreads'⟩ := ih hs' (by omega) (by omega) hn₁
    rw [programFrom_step hne hok, programFrom_step hne (heq.trans hok)]
    show EStateM.map (consOption a) (programFrom declaration' n') s' =
      EStateM.map (consOption a) (programFrom declaration n) s' ∧ ∃ ss s'',
        EStateM.map (consOption a) (programFrom declaration n) s' = .ok ss s'' ∧ Reads s s.rest s''
    unfold EStateM.map
    rw [heq', hok']
    refine ⟨rfl, _, s'', rfl, ?_⟩
    have hboth := hreads.trans hreads'
    rwa [← hreads.rest] at hboth

theorem plainStatement_coincide (hs : ∀ j, j + 1 ≤ k → Coincide j 1 statement statement')
    (hb : ∀ j, j + 1 ≤ k → Coincide j 0 block block') (hn : k ≤ n) (hn' : k ≤ n') :
    Coincide k 1 (plainStatement statement block n) (plainStatement statement' block' n') := by
  refine peek_then_coincide fun t => ?_
  generalize hkind : t.kind = kind
  have ht : ∀ kind', kind = kind' → kind' ≠ .eof → t.kind ≠ .eof := by
    rintro _ rfl hne
    rwa [hkind]
  cases kind
  case kwBreak => exact skip_then_coincide (ht _ rfl (by decide)) fun j hj => breakStatement_coincide
  case kwFor =>
    exact skip_then_coincide (ht _ rfl (by decide)) fun j hj =>
      forStatement_coincide (hs j hj) (by omega) (by omega)
  case kwIf =>
    exact skip_then_coincide (ht _ rfl (by decide)) fun j hj =>
      ifStatement_coincide (hs j hj) (by omega) (by omega)
  case kwPrint =>
    exact skip_then_coincide (ht _ rfl (by decide)) fun j hj =>
      (closed_coincide _ _ (by omega) (by omega)).any
  case kwReturn =>
    exact skip_then_coincide (ht _ rfl (by decide)) fun j hj =>
      returnStatement_coincide (by omega) (by omega)
  case kwWhile =>
    exact skip_then_coincide (ht _ rfl (by decide)) fun j hj =>
      whileStatement_coincide (hs j hj) (by omega) (by omega)
  case leftBrace =>
    exact skip_then_coincide (ht _ rfl (by decide)) fun j hj => (hb j hj).seq fun ss => .pure _
  all_goals exact (closed_coincide _ _ hn hn').here

theorem anyStatement_coincide (hs : ∀ j, j + 1 ≤ k → Coincide j 1 statement statement')
    (hb : ∀ j, j + 1 ≤ k → Coincide j 0 block block') (hn : k ≤ n) (hn' : k ≤ n') :
    Coincide k 1 (anyStatement statement block n) (anyStatement statement' block' n') := by
  refine peek_then_coincide fun t => ?_
  generalize hkind : t.kind = kind
  cases kind
  case kwFun =>
    exact skip_then_coincide (by simp [hkind]) fun j hj =>
      (funDeclaration_coincide (hb j hj) (by omega) (by omega)).any
  case kwVar =>
    exact skip_then_coincide (by simp [hkind]) fun j hj =>
      (varDeclaration_coincide (by omega) (by omega)).any
  all_goals exact (plainStatement_coincide hs hb hn hn').here

theorem plainStatement_failsAtEnd : FailsAtEnd (plainStatement statement block n) := by
  intro s hrest hs
  rw [plainStatement, peek_atEnd hrest, hs]
  exact (expression_failsAtEnd n).bind _ s hrest hs

theorem anyStatement_failsAtEnd : FailsAtEnd (anyStatement statement block n) := by
  intro s hrest hs
  rw [anyStatement, peek_atEnd hrest, hs]
  exact plainStatement_failsAtEnd s hrest hs

end

theorem statement_failsAtEnd (n : Nat) (declares : Bool) : FailsAtEnd (statement n declares) := by
  cases n with
  | zero =>
    intro s hrest _
    exact peek_atEnd hrest
  | succ n =>
    cases declares with
    | false => exact plainStatement_failsAtEnd
    | true => exact anyStatement_failsAtEnd

/-- With any budget of at least the tokens left, a statement is read in the same way. -/
theorem statement_coincide {k n n' : Nat} (hn : k ≤ n) (hn' : k ≤ n') (declares : Bool) :
    Coincide k 1 (statement n declares) (statement n' declares) := by
  induction n generalizing k n' declares with
  | zero =>
    obtain rfl := Nat.le_zero.1 hn
    exact .of_failsAtEnd (statement_failsAtEnd _ _) (statement_failsAtEnd _ _)
  | succ n ih =>
    cases n' with
    | zero =>
      obtain rfl := Nat.le_zero.1 hn'
      exact .of_failsAtEnd (statement_failsAtEnd _ _) (statement_failsAtEnd _ _)
    | succ n' =>
      have hnested : ∀ j, j + 1 ≤ k → ∀ declares,
          Coincide j 1 (statement n declares) (statement n' declares) :=
        fun j hj declares => ih (by omega) (by omega) declares
      have hblock : ∀ j, j + 1 ≤ k → Coincide j 0 (block (recovering (statement n true)) (n + 1))
          (block (recovering (statement n' true)) (n' + 1)) := fun j hj =>
        block_coincide (recovering_persist (hnested j hj true)) (by omega) (by omega)
      cases declares with
      | false => exact plainStatement_coincide (fun j hj => hnested j hj false) hblock hn hn'
      | true => exact anyStatement_coincide (fun j hj => hnested j hj false) hblock hn hn'

/-- A declaration never fails, and passes over a token if there is one. -/
theorem declaration_persist {k n n' : Nat} (hn : k ≤ n) (hn' : k ≤ n') :
    Persist k (declaration n) (declaration n') :=
  recovering_persist (statement_coincide hn hn' true)

end GradedScript.Parser
