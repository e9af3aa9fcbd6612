import GradedScript.Proofs.Parser.Reading

/-!
# Where parsers are led

The counterpart of reading: `Leads s rest p ts q` says that with `ts` in front of `rest` the parser
`p` does what `q` does behind `ts`, and reports nothing before that. A parser that yields `a` leads
to `pure a`. Here are the steps parsers are made of, for tokens that are as they want them.
-/

namespace GradedScript.Parser

variable {α β : Type}

/-- From `s`, with `ts` in front of `rest`, a parser goes on as another one behind `ts`. -/
def Leads (s : State) (rest : List Token) (p : Parser α) (ts : List Token) (q : Parser α) : Prop :=
  p { s with rest := ts ++ rest } = q { s with rest := rest }

namespace Leads

variable {s : State} {rest ts us : List Token} {p q r : Parser α} {a : α}

theorem refl : Leads s rest p [] p :=
  rfl

/-- Where a parser is led, it can be led on from. -/
theorem trans (h : Leads s (us ++ rest) p ts q) (h' : Leads s rest q us r) :
    Leads s rest p (ts ++ us) r := by
  unfold Leads at *
  rw [List.append_assoc, h, h']

/-- A parser that looks at tokens and goes on as another one. -/
theorem via (h : Leads s (ts ++ rest) p [] q) (h' : Leads s rest q ts r) : Leads s rest p ts r :=
  h.trans h'

/-- What a parser yields is handed on to the next. -/
theorem bind (h : Leads s rest p ts (pure a)) (f : α → Parser β) :
    Leads s rest (p >>= f) ts (f a) := by
  unfold Leads at *
  show EStateM.bind p f _ = _
  rw [EStateM.bind, h]
  rfl

/-- One parser after another, each with its own tokens. -/
theorem next {f : α → Parser β} {q : Parser β} (h : Leads s (us ++ rest) p ts (pure a))
    (h' : Leads s rest (f a) us q) : Leads s rest (p >>= f) (ts ++ us) q :=
  (h.bind f).trans h'

/-- One parser after another, where the first one only looks. -/
theorem look {f : α → Parser β} {q : Parser β} (h : Leads s (ts ++ rest) p [] (pure a))
    (h' : Leads s rest (f a) ts q) : Leads s rest (p >>= f) ts q :=
  h.next h'

/-- One parser after another, where the second one reads nothing. -/
theorem last {f : α → Parser β} {q : Parser β} (h : Leads s rest p ts (pure a))
    (h' : Leads s rest (f a) [] q) : Leads s rest (p >>= f) ts q := by
  have hboth : Leads s rest (p >>= f) (ts ++ []) q := (h.bind f).trans h'
  rwa [List.append_nil] at hboth

end Leads

/-! ## Primitive steps

A step depends on the next token only. For a token it wants there is a lemma that leads it past that
token, and for one that it does not want (`Ends`) there is one that leads it on without reading. The
end of the tokens is never wanted. -/

/-- None of the kinds comes next. -/
def Ends (kinds : List Kind) (ts : List Token) : Prop :=
  ∀ t ∈ ts.head?, t.kind ∉ kinds

section

variable {s : State} {rest ts : List Token} {t : Token} {p : Parser α} {a : α}

theorem Ends.nil (kinds : List Kind) : Ends kinds [] := by
  intro t ht
  cases ht

theorem Ends.cons {kinds : List Kind} (h : t.kind ∉ kinds) : Ends kinds (t :: ts) := by
  intro u hu
  rwa [← Option.some.inj hu]

/-- How `Ends` is shown in use: the kind of the next token is known, and `decide` does the rest. -/
theorem Ends.of_kind {kinds : List Kind} {kind : Kind} (h : t.kind = kind) (hkind : kind ∉ kinds) :
    Ends kinds (t :: ts) :=
  .cons (h ▸ hkind)

theorem Ends.mono {kinds kinds' : List Kind} (h : Ends kinds ts) (hsub : kinds' ⊆ kinds) :
    Ends kinds' ts :=
  fun t ht hmem => h t ht (hsub hmem)

theorem peek_leads (f : Token → Parser α) : Leads s (t :: ts) (peek >>= f) [] (f t) :=
  rfl

theorem skip_leads (f : Unit → Parser α) : Leads s rest (skip >>= f) [t] (f ()) :=
  rfl

/-- A token that is wanted is read. -/
theorem acceptIf_leads {q : Kind → Bool} (h : q t.kind = true) :
    Leads s rest (acceptIf q) [t] (pure (some t)) := by
  unfold Leads acceptIf
  simp only [List.cons_append, List.nil_append, h, if_true]
  rfl

/-- A token that is not wanted is left where it is. -/
theorem acceptIf_leads_none {q : Kind → Bool} (h : ∀ t ∈ rest.head?, q t.kind = false) :
    Leads s rest (acceptIf q) [] (pure none) := by
  unfold Leads acceptIf
  cases rest with
  | nil => rfl
  | cons t ts =>
    simp only [List.nil_append, h t rfl, Bool.false_eq_true, if_false]
    rfl

theorem accept_leads {kind : Kind} (h : t.kind = kind) :
    Leads s rest (accept kind) [t] (pure (some t)) :=
  acceptIf_leads (decide_eq_true h)

theorem accept_leads_none {kind : Kind} (h : Ends [kind] rest) :
    Leads s rest (accept kind) [] (pure none) :=
  acceptIf_leads_none fun t ht => decide_eq_false fun hkind =>
    h t ht (List.mem_singleton.2 hkind)

/-- Nothing is said of tokens that are not the expected ones: `expect` fails at them. -/
theorem expect_leads {kind : Kind} (what : Expectation) (h : t.kind = kind) :
    Leads s rest (expect kind what) [t] (pure t) :=
  (accept_leads h).last .refl

theorem nextIs_leads {kind : Kind} (h : t.kind = kind) :
    Leads s (t :: ts) (nextIs kind) [] (pure true) := by
  unfold Leads nextIs
  simp only [List.nil_append, h, decide_true]
  rfl

theorem nextIs_leads_false {kind : Kind} (h : Ends [kind] rest) :
    Leads s rest (nextIs kind) [] (pure false) := by
  unfold Leads nextIs
  cases rest with
  | nil => rfl
  | cons t ts =>
    have hkind : t.kind ≠ kind := fun hkind => h t rfl (List.mem_singleton.2 hkind)
    simp only [List.nil_append, hkind, decide_false]
    rfl

/-! ## Nesting

The depths are counted up for the parser inside and back down behind it. So a parser is led in a
loop or a function if it is led at the depths there, and the state behind it has the depths of
before. -/

theorem insideLoop_leads
    (h : Leads { s with loopDepth := s.loopDepth + 1 } rest p ts (pure a)) :
    Leads s rest (insideLoop p) ts (pure a) := by
  unfold Leads insideLoop at *
  dsimp only at *
  rw [h]
  rfl

theorem insideFunction_leads
    (h : Leads { s with loopDepth := 0, functionDepth := s.functionDepth + 1 } rest p ts (pure a)) :
    Leads s rest (insideFunction p) ts (pure a) := by
  unfold Leads insideFunction at *
  dsimp only at *
  rw [h]
  rfl

/-- A parser that does not fail has nothing to recover from. -/
theorem recovering_leads (h : Leads s rest p ts (pure a)) :
    Leads s rest (recovering p) ts (pure (some a)) := by
  unfold Leads recovering at *
  rw [h]
  rfl

end

end GradedScript.Parser
