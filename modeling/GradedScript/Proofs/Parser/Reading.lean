import GradedScript.Parser
import GradedScript.Proofs.Tree.Roles

/-!
# What parsers read

A parser takes tokens off the front, may report faults, and leaves everything else as it was
(`Reads`). `Obeys n A D p` says more of its result: `A` always holds of it, and `D` relates it to
the tokens read and the tokens left, provided nothing was reported and at most `n` tokens were there
to begin with. The rules below follow the steps parsers are made of.
-/

namespace GradedScript.Parser

variable {α β : Type}

/-- Where the parser stands. -/
def State.place (s : State) : Place where
  inLoop := s.loopDepth ≠ 0
  inFunction := s.functionDepth ≠ 0

/-- A loop deeper is the place of a loop's body. -/
theorem State.place_enterLoop (s : State) :
    ({ s with loopDepth := s.loopDepth + 1 } : State).place = s.place.loopBody := by
  simp [State.place, Place.loopBody]

/-- A function deeper is the place of its body, whatever loops are around it. -/
theorem State.place_enterFunction (s : State) :
    ({ s with loopDepth := 0, functionDepth := s.functionDepth + 1 } : State).place = .body := by
  simp [State.place, Place.body]

/-- The state after some tokens were read and faults reported. -/
structure Reads (s : State) (ts : List Token) (s' : State) : Prop where
  rest : s.rest = ts ++ s'.rest
  stop : s'.stop = s.stop
  loopDepth : s'.loopDepth = s.loopDepth
  functionDepth : s'.functionDepth = s.functionDepth
  errors : s.errors.toList <+: s'.errors.toList

namespace Reads

variable {s s' s'' : State} {ts us : List Token}

theorem refl (s : State) : Reads s [] s :=
  ⟨rfl, rfl, rfl, rfl, List.prefix_rfl⟩

theorem trans (h : Reads s ts s') (h' : Reads s' us s'') : Reads s (ts ++ us) s'' where
  rest := by rw [h.rest, h'.rest, List.append_assoc]
  stop := h'.stop.trans h.stop
  loopDepth := h'.loopDepth.trans h.loopDepth
  functionDepth := h'.functionDepth.trans h.functionDepth
  errors := h.errors.trans h'.errors

theorem place_eq (h : Reads s ts s') : s'.place = s.place := by
  simp only [State.place, h.loopDepth, h.functionDepth]

/-- If nothing was reported in the end, nothing was reported before. -/
theorem quiet (h : Reads s ts s') (h' : Reads s' us s'') (hquiet : s''.errors = s.errors) :
    s'.errors = s.errors ∧ s''.errors = s'.errors := by
  have hle := h'.errors
  rw [hquiet] at hle
  have heq : s'.errors = s.errors :=
    Array.toList_inj.1 (hle.eq_of_length_le h.errors.length_le)
  exact ⟨heq, hquiet.trans heq.symm⟩

end Reads

/-! ## Specifications -/

/-- What is said of a result: it was obtained at a place, from tokens read, with tokens left. -/
abbrev Post (α : Type) := Place → (read : List Token) → α → (rest : List Token) → Prop

/-- What a parser does from a state. -/
def Meets (n : Nat) (A : α → Prop) (D : Post α) (s : State) :
    EStateM.Result ParseError State α → Prop
  | .ok a s' => ∃ ts, Reads s ts s' ∧ A a ∧
      (s.rest.length ≤ n → s'.errors = s.errors → D s.place ts a s'.rest)
  | .error _ s' => ∃ ts, Reads s ts s'

/-- What a parser does from every state that ends with an end token. -/
def Obeys (n : Nat) (A : α → Prop) (D : Post α) (p : Parser α) : Prop :=
  ∀ s, s.stop.kind = .eof → Meets n A D s (p s)

/-- Nothing is said of a result. -/
def anyResult (_ : α) : Prop :=
  True

namespace Obeys

variable {n m : Nat} {A : α → Prop} {D D' : Post α} {p : Parser α}

theorem pure {a : α} (ha : A a) (hD : ∀ pl rest, rest.length ≤ n → D pl [] a rest) :
    Obeys n A D (pure a) := by
  intro s _
  exact ⟨[], .refl s, ha, fun hn _ => hD s.place s.rest hn⟩

/-- One parser after another. What the second one must show is told with the tokens the first one
read put in front. -/
theorem bind {k : α → Nat} {B : β → Prop} {E : Post β} {f : α → Parser β}
    (hp : Obeys n A D p)
    (hk : ∀ pl ts a rest, A a → D pl ts a rest → n ≤ k a + ts.length)
    (hf : ∀ a, A a → Obeys (k a) B
      (fun pl us b rest => ∀ ts, (ts ++ (us ++ rest)).length ≤ n → D pl ts a (us ++ rest) →
        E pl (ts ++ us) b rest) (f a)) :
    Obeys n B E (p >>= f) := by
  intro s hs
  have hmeets := hp s hs
  show Meets n B E s (EStateM.bind p f s)
  unfold EStateM.bind
  revert hmeets
  cases p s with
  | error e s' => exact fun hmeets => hmeets
  | ok a s' =>
    rintro ⟨ts, hreads, ha, hD⟩
    have hmeets' := hf a ha s' (by rw [hreads.stop]; exact hs)
    show Meets n B E s (f a s')
    revert hmeets'
    cases f a s' with
    | error e s'' => exact fun ⟨us, hreads'⟩ => ⟨ts ++ us, hreads.trans hreads'⟩
    | ok b s'' =>
      rintro ⟨us, hreads', hb, hE⟩
      refine ⟨ts ++ us, hreads.trans hreads', hb, ?_⟩
      intro hn hquiet
      obtain ⟨hquiet₁, hquiet₂⟩ := hreads.quiet hreads' hquiet
      have hD := hD hn hquiet₁
      -- the tokens that are left fit what is left of the budget
      have hlength : s'.rest.length ≤ k a := by
        have hka := hk _ _ _ _ ha hD
        have hsum := congrArg List.length hreads.rest
        rw [List.length_append] at hsum
        omega
      have hE := hE hlength hquiet₂ ts
      rw [hreads.place_eq, ← hreads'.rest, ← hreads.rest] at hE
      exact hE hn hD

/-- One parser after another, when it does not matter that the first one read something. -/
theorem seq {B : β → Prop} {E : Post β} {f : α → Parser β} (hp : Obeys n A D p)
    (hf : ∀ a, A a → Obeys n B
      (fun pl us b rest => ∀ ts, (ts ++ (us ++ rest)).length ≤ n → D pl ts a (us ++ rest) →
        E pl (ts ++ us) b rest) (f a)) :
    Obeys n B E (p >>= f) :=
  hp.bind (fun _ _ _ _ _ _ => Nat.le_add_right n _) hf

theorem mono (h : Obeys n A D p) (hm : m ≤ n) {A' : α → Prop} (hA : ∀ a, A a → A' a)
    (hD : ∀ pl ts a rest, A a → D pl ts a rest → D' pl ts a rest) : Obeys m A' D' p := by
  intro s hs
  have hmeets := h s hs
  revert hmeets
  cases p s with
  | error e s' => exact id
  | ok a s' =>
    rintro ⟨ts, hreads, ha, hD₁⟩
    exact ⟨ts, hreads, hA a ha, fun hn hq => hD _ _ _ _ ha (hD₁ (Nat.le_trans hn hm) hq)⟩

end Obeys

/-! ## Primitive steps -/

section

variable {n : Nat} {A : α → Prop} {D : Post α}

theorem failAt_obeys (token : Token) (fault : ParseFault) : Obeys n A D (failAt token fault) :=
  fun s _ => ⟨[], .refl s⟩

/-- A parser that reports something has nothing to show. -/
theorem report_obeys (token : Token) (fault : ParseFault) :
    Obeys n anyResult (fun _ _ _ _ => False) (report token fault) := by
  intro s _
  refine ⟨[], ⟨rfl, rfl, rfl, rfl, ?_⟩, trivial, ?_⟩
  · rw [Array.toList_push]
    exact List.prefix_append _ _
  · intro _ hquiet
    have hsize := congrArg Array.size hquiet
    simp at hsize

theorem report_then {token : Token} {fault : ParseFault} {k : Unit → Parser α} {D' : Post α}
    (h : Obeys n A D' (k ())) : Obeys n A D (report token fault >>= k) :=
  (report_obeys token fault).seq fun _ _ =>
    h.mono n.le_refl (fun _ ha => ha) fun _ _ _ _ _ _ _ _ hfalse => hfalse.elim

/-- The token at the front of a list, if there is one; an end token else. -/
def Next (t : Token) (ts : List Token) : Prop :=
  (ts = [] ∧ t.kind = .eof) ∨ ∃ us, ts = t :: us

/-- A parser that begins with a look at the next token. -/
theorem peek_then {f : Token → Parser α}
    (h : ∀ t, Obeys n A (fun pl ts a rest => Next t (ts ++ rest) → D pl ts a rest) (f t)) :
    Obeys n A D (peek >>= f) := by
  intro s hs
  have hmeets := h (s.rest.headD s.stop) s hs
  show Meets n A D s (f (s.rest.headD s.stop) s)
  revert hmeets
  cases f (s.rest.headD s.stop) s with
  | error e s' => exact id
  | ok a s' =>
    rintro ⟨ts, hreads, ha, hD⟩
    refine ⟨ts, hreads, ha, fun hn hquiet => hD hn hquiet ?_⟩
    rw [← hreads.rest]
    cases s.rest with
    | nil => exact .inl ⟨rfl, hs⟩
    | cons t us => exact .inr ⟨us, rfl⟩

/-- A parser that passes over the token it has looked at. -/
theorem skip_then {t : Token} {p : Parser α} (ht : t.kind ≠ .eof)
    (h : Obeys n A (fun pl ts a rest => D pl (t :: ts) a rest) p) :
    Obeys (n + 1) A (fun pl ts a rest => Next t (ts ++ rest) → D pl ts a rest)
      (skip >>= fun _ => p) := by
  intro s hs
  have hmeets := h { s with rest := s.rest.tail } hs
  show Meets _ _ _ s (p { s with rest := s.rest.tail })
  revert hmeets
  cases p { s with rest := s.rest.tail } with
  | error e s' =>
    rintro ⟨ts, hreads⟩
    refine ⟨s.rest.take 1 ++ ts, ?_, hreads.stop, hreads.loopDepth, hreads.functionDepth,
      hreads.errors⟩
    rw [List.append_assoc, ← hreads.rest, ← List.drop_one, List.take_append_drop]
  | ok a s' =>
    rintro ⟨ts, hreads, ha, hD⟩
    refine ⟨s.rest.take 1 ++ ts, ⟨?_, hreads.stop, hreads.loopDepth, hreads.functionDepth,
      hreads.errors⟩, ha, fun hn hquiet hnext => ?_⟩
    · rw [List.append_assoc, ← hreads.rest, ← List.drop_one, List.take_append_drop]
    · rw [List.append_assoc, ← hreads.rest, ← List.drop_one, List.take_append_drop] at hnext
      -- at the end nothing was passed over, but there the token were the end token
      obtain ⟨_, heof⟩ | ⟨us, hus⟩ := hnext
      · exact absurd heof ht
      · rw [hus]
        refine hD ?_ hquiet
        rw [hus] at hn ⊢
        exact Nat.le_of_succ_le_succ hn

/-- A token was read if it was of the wanted kind; if none was, none is in front. -/
def Accepted (q : Kind → Bool) (ts : List Token) (t? : Option Token) (rest : List Token) : Prop :=
  ts = t?.toList ∧ (t? = none → ∀ t ∈ rest.head?, q t.kind = false)

theorem acceptIf_obeys (q : Kind → Bool) : Obeys n (fun t? => ∀ t ∈ t?, q t.kind = true)
    (fun _ ts t? rest => Accepted q ts t? rest) (acceptIf q) := by
  intro s _
  unfold acceptIf
  cases hrest : s.rest with
  | nil =>
    refine ⟨[], .refl s, by simp, fun _ _ => ⟨rfl, fun _ t ht => ?_⟩⟩
    simp [hrest] at ht
  | cons t us =>
    dsimp only
    split
    · rename_i hq
      refine ⟨[t], ⟨hrest, rfl, rfl, rfl, List.prefix_rfl⟩, by simpa using hq, fun _ _ => ?_⟩
      exact ⟨rfl, fun hnone => by cases hnone⟩
    · rename_i hq
      refine ⟨[], .refl s, by simp, fun _ _ => ⟨rfl, fun _ t' ht' => ?_⟩⟩
      rw [hrest, List.head?_cons, Option.mem_some_iff] at ht'
      subst ht'
      simpa using hq

theorem accept_obeys (kind : Kind) : Obeys n (fun t? => ∀ t ∈ t?, t.kind = kind)
    (fun _ ts t? rest => Accepted (fun k => k = kind) ts t? rest) (accept kind) :=
  (acceptIf_obeys _).mono n.le_refl (fun _ h t ht => of_decide_eq_true (h t ht))
    fun _ _ _ _ _ hD => hD

theorem expect_obeys (kind : Kind) (what : Expectation) :
    Obeys n (fun t => t.kind = kind) (fun _ ts t _ => ts = [t]) (expect kind what) := by
  refine (accept_obeys kind).seq fun t? ht => ?_
  cases t? with
  | none => exact peek_then fun t => failAt_obeys t _
  | some t =>
    refine .pure (ht t rfl) fun _ _ _ ts _ hD => ?_
    simp [hD.1]

theorem nextIs_obeys (kind : Kind) : Obeys n anyResult (fun _ ts _ _ => ts = []) (nextIs kind) := by
  intro s _
  unfold nextIs
  split <;> exact ⟨[], .refl s, trivial, fun _ _ => rfl⟩

theorem atEnd_obeys :
    Obeys n anyResult (fun _ ts b rest => ts = [] ∧ (b = true → rest = [])) atEnd := by
  intro s _
  exact ⟨[], .refl s, trivial, fun _ _ => ⟨rfl, List.isEmpty_iff.1⟩⟩

theorem get_obeys : Obeys n anyResult (fun pl ts s _ => ts = [] ∧ s.place = pl) get :=
  fun s _ => ⟨[], .refl s, trivial, fun _ _ => ⟨rfl, rfl⟩⟩

/-- A parser that reports a fault unless it stands where it may, and goes on in either case. -/
theorem checked_obeys {c : State → Prop} [DecidablePred c] {token : Token} {fault : ParseFault}
    {k : Parser α} {M : Place → Prop} (hplace : ∀ s, ¬ c s → M s.place)
    (hk : Obeys n A (fun pl ts a rest => M pl → D pl ts a rest) k) :
    Obeys n A D (get >>= fun s => if c s then report token fault >>= fun _ => k else k) := by
  refine get_obeys.seq fun s _ => ?_
  split
  · exact report_then hk
  · rename_i hmay
    refine hk.mono n.le_refl (fun _ h => h) ?_
    rintro _ us a rest _ h ts _ ⟨rfl, rfl⟩
    exact h (hplace s hmay)

/-! ## Nesting and recovery -/

variable {p : Parser α}

theorem insideLoop_obeys (h : Obeys n A D p) :
    Obeys n A (fun pl ts a rest => D pl.loopBody ts a rest) (insideLoop p) := by
  intro s hs
  have hmeets := h { s with loopDepth := s.loopDepth + 1 } hs
  unfold insideLoop
  revert hmeets
  cases p { s with loopDepth := s.loopDepth + 1 } with
  | error e s' =>
    rintro ⟨ts, hreads⟩
    exact ⟨ts, hreads.rest, hreads.stop, congrArg (· - 1) hreads.loopDepth, hreads.functionDepth,
      hreads.errors⟩
  | ok a s' =>
    rintro ⟨ts, hreads, ha, hD⟩
    refine ⟨ts, ⟨hreads.rest, hreads.stop, congrArg (· - 1) hreads.loopDepth, hreads.functionDepth,
      hreads.errors⟩, ha, fun hn hquiet => ?_⟩
    have hD := hD hn hquiet
    rw [s.place_enterLoop] at hD
    exact hD

theorem insideFunction_obeys (h : Obeys n A D p) :
    Obeys n A (fun _ ts a rest => D .body ts a rest) (insideFunction p) := by
  intro s hs
  have hmeets := h { s with loopDepth := 0, functionDepth := s.functionDepth + 1 } hs
  unfold insideFunction
  revert hmeets
  dsimp only
  cases p { s with loopDepth := 0, functionDepth := s.functionDepth + 1 } with
  | error e s' =>
    rintro ⟨ts, hreads⟩
    exact ⟨ts, hreads.rest, hreads.stop, rfl, congrArg (· - 1) hreads.functionDepth, hreads.errors⟩
  | ok a s' =>
    rintro ⟨ts, hreads, ha, hD⟩
    refine ⟨ts, ⟨hreads.rest, hreads.stop, rfl, congrArg (· - 1) hreads.functionDepth,
      hreads.errors⟩, ha, fun hn hquiet => ?_⟩
    have hD := hD hn hquiet
    rw [s.place_enterFunction] at hD
    exact hD

theorem boundaryAfter_suffix (previous : Token) (ts : List Token) :
    boundaryAfter previous ts <:+ ts := by
  induction ts generalizing previous with
  | nil => exact List.suffix_rfl
  | cons t ts ih =>
    unfold boundaryAfter
    split
    · exact List.suffix_rfl
    · exact (ih t).trans (List.suffix_cons t ts)

theorem resync_suffix (ts : List Token) : resync ts <:+ ts := by
  cases ts with
  | nil => exact List.suffix_rfl
  | cons t ts => exact (boundaryAfter_suffix t ts).trans (List.suffix_cons t ts)

/-- A parser that recovers reports what it recovers from, so it has something to show only if it did
not have to. -/
theorem recovering_obeys (h : Obeys n A D p) :
    Obeys n (fun a? => ∀ a ∈ a?, A a)
      (fun pl ts a? rest => ∃ a, a? = some a ∧ D pl ts a rest) (recovering p) := by
  intro s hs
  have hmeets := h s hs
  unfold recovering
  revert hmeets
  cases p s with
  | ok a s' =>
    rintro ⟨ts, hreads, ha, hD⟩
    refine ⟨ts, hreads, by simpa using ha, fun hn hquiet => ⟨a, rfl, hD hn hquiet⟩⟩
  | error e s' =>
    rintro ⟨ts, hreads⟩
    obtain ⟨us, hus⟩ := resync_suffix s'.rest
    refine ⟨ts ++ us, ⟨?_, hreads.stop, hreads.loopDepth, hreads.functionDepth, ?_⟩, by simp, ?_⟩
    · rw [hreads.rest, List.append_assoc, hus]
    · rw [Array.toList_push]
      exact hreads.errors.trans (List.prefix_append _ _)
    · -- the fault recovered from was reported, so there is nothing to show
      intro _ hquiet
      have hle := hreads.errors.length_le
      have hsize := congrArg Array.size hquiet
      simp at hle hsize
      omega

end

end GradedScript.Parser
