import GradedScript.Proofs.Machine.Soundness
import GradedScript.Proofs.Scope.Reindexing

/-!
# Two machines side by side

How two machines that run side by side compare is told by worlds. A world holds the states of both
and what is known of them, and later worlds follow as the machines run on. `Companions` lists what a
kind of worlds comes with. Two steps end alike (`Companions.EndsAlike`) if both end, in a later world
and with related results, or both halt there in corresponding ways.

That steps which end alike can be put in sequence and left however they end, and that names are read
and written alike where they are looked up alike, does not depend on the kind of worlds.
-/

namespace GradedScript

open Exec

/-- A kind of worlds for two machines that run side by side. -/
structure Companions (World : Type) where
  left : World → State
  right : World → State
  /-- something ran and ended in both machines, perhaps with a halt -/
  Later : World → World → Prop
  /-- what the machines have in common when something has ended -/
  Sound : World → Prop
  /-- halts that correspond -/
  Halts : Halt → Halt → Prop
  refl : ∀ w, Later w w
  trans : ∀ {w w' w''}, Later w w' → Later w' w'' → Later w w''

namespace Companions

variable {World α β γ δ : Type}

/-- What is known of the results of two steps that start in a world: both end, with related results,
or both halt in corresponding ways, and the machines are in a later world then. -/
inductive EndsAlike (M : Companions World) (w : World) (Q : World → α → β → Prop) :
    EStateM.Result Halt State α → EStateM.Result Halt State β → Prop
  | ok {a b s t} (w' : World) (hleft : M.left w' = s) (hright : M.right w' = t)
      (hlater : M.Later w w') (hsound : M.Sound w') (hQ : Q w' a b) :
      EndsAlike M w Q (.ok a s) (.ok b t)
  | halt {halt halt' s t} (w' : World) (hleft : M.left w' = s) (hright : M.right w' = t)
      (hlater : M.Later w w') (hsound : M.Sound w') (hhalt : M.Halts halt halt') :
      EndsAlike M w Q (.error halt s) (.error halt' t)

namespace EndsAlike

variable {M : Companions World} {w w' : World} {Q : World → α → β → Prop}
  {Q' : World → γ → δ → Prop}

/-- Ending at once. -/
theorem pure {a : α} {b : β} (hsound : M.Sound w) (hQ : Q w a b) :
    M.EndsAlike w Q (.ok a (M.left w)) (.ok b (M.right w)) :=
  .ok w rfl rfl (M.refl w) hsound hQ

/-- Halting at once. -/
theorem halted {halt halt' : Halt} (hsound : M.Sound w) (hhalt : M.Halts halt halt') :
    M.EndsAlike w Q (.error halt (M.left w)) (.error halt' (M.right w)) :=
  .halt w rfl rfl (M.refl w) hsound hhalt

theorem after {r : EStateM.Result Halt State α} {r' : EStateM.Result Halt State β}
    (hlater : M.Later w w') (h : M.EndsAlike w' Q r r') : M.EndsAlike w Q r r' := by
  cases h with
  | ok w'' hleft hright hlater' hsound hQ =>
    exact .ok w'' hleft hright (M.trans hlater hlater') hsound hQ
  | halt w'' hleft hright hlater' hsound hhalt =>
    exact .halt w'' hleft hright (M.trans hlater hlater') hsound hhalt

/-- Steps in sequence. -/
theorem bind {x : Exec α} {y : Exec β} {f : α → Exec γ} {g : β → Exec δ}
    (h : M.EndsAlike w Q (x (M.left w)) (y (M.right w)))
    (hf : ∀ w' a b, M.Later w w' → M.Sound w' → Q w' a b →
      M.EndsAlike w' Q' (f a (M.left w')) (g b (M.right w'))) :
    M.EndsAlike w Q' ((x >>= f) (M.left w)) ((y >>= g) (M.right w)) := by
  show M.EndsAlike w Q' (EStateM.bind x f (M.left w)) (EStateM.bind y g (M.right w))
  unfold EStateM.bind
  revert h
  generalize x (M.left w) = r, y (M.right w) = r'
  intro h
  cases h with
  | ok w' hleft hright hlater hsound hQ =>
    subst hleft hright
    exact (hf w' _ _ hlater hsound hQ).after hlater
  | halt w' hleft hright hlater hsound hhalt => exact .halt w' hleft hright hlater hsound hhalt

/-- Steps that are left however they end. Leaving must succeed on both sides and lead back. -/
theorem thenLeave {Q' : World → α → β → Prop} {x : Exec α} {y : Exec β} {leave leave' : Exec Unit}
    {start : World} (h : M.EndsAlike start Q (x (M.left start)) (y (M.right start)))
    (hleave : ∀ w₁, M.Later start w₁ → M.Sound w₁ → ∃ w₂, leave (M.left w₁) = .ok () (M.left w₂) ∧
      leave' (M.right w₁) = .ok () (M.right w₂) ∧ M.Later w w₂ ∧ M.Sound w₂ ∧
        ∀ a b, Q w₁ a b → Q' w₂ a b) :
    M.EndsAlike w Q' (Exec.thenLeave x leave (M.left start))
      (Exec.thenLeave y leave' (M.right start)) := by
  unfold Exec.thenLeave
  revert h
  generalize x (M.left start) = r, y (M.right start) = r'
  intro h
  cases h with
  | ok w₁ hleft hright hlater hsound hQ =>
    subst hleft hright
    obtain ⟨w₂, hs, ht, hlater₂, hsound₂, hQ₂⟩ := hleave w₁ hlater hsound
    simp only [hs, ht]
    exact .ok w₂ rfl rfl hlater₂ hsound₂ (hQ₂ _ _ hQ)
  | halt w₁ hleft hright hlater hsound hhalt =>
    subst hleft hright
    obtain ⟨w₂, hs, ht, hlater₂, hsound₂, -⟩ := hleave w₁ hlater hsound
    simp only [hs, ht]
    exact .halt w₂ rfl rfl hlater₂ hsound₂ hhalt

/-! ## Names

A name is read and assigned alike if it is looked up alike from the current scopes. What is left to a
kind of worlds is that binding it in corresponding scopes leads to a later world. -/

section

variable {t t' : Token} {owners : ScopeId → ScopeId → Prop} {values : World → Value → Value → Prop}
  {value value' : Value}

theorem readName (hsound : M.Sound w)
    (hresolve : ScopeStore.ResolvesAlike owners (values w)
      ((M.left w).store.resolve t.lexeme (M.left w).current)
      ((M.right w).store.resolve t'.lexeme (M.right w).current))
    (hunbound : M.Halts (.fault ⟨.undefinedVariable t.lexeme, t⟩)
      (.fault ⟨.undefinedVariable t'.lexeme, t'⟩)) :
    M.EndsAlike w values (Exec.readName t (M.left w)) (Exec.readName t' (M.right w)) := by
  unfold Exec.readName ScopeStore.get
  revert hresolve
  generalize (M.left w).store.resolve t.lexeme (M.left w).current = r,
    (M.right w).store.resolve t'.lexeme (M.right w).current = r'
  intro hresolve
  cases hresolve with
  | found _ hvalue => exact .pure hsound hvalue
  | unbound => exact .halted hsound hunbound

theorem assignName (hsound : M.Sound w) {old : Value → Value → Prop}
    (hresolve : ScopeStore.ResolvesAlike owners old
      ((M.left w).store.resolve t.lexeme (M.left w).current)
      ((M.right w).store.resolve t'.lexeme (M.right w).current))
    (hunbound : M.Halts (.fault ⟨.undefinedVariable t.lexeme, t⟩)
      (.fault ⟨.undefinedVariable t'.lexeme, t'⟩))
    (hbind : ∀ owner owner', owners owner owner' → M.EndsAlike w (fun _ _ _ => True)
      (.ok () { M.left w with store := (M.left w).store.bind owner t.lexeme value })
      (.ok () { M.right w with store := (M.right w).store.bind owner' t'.lexeme value' })) :
    M.EndsAlike w (fun _ _ _ => True) (Exec.assignName t value (M.left w))
      (Exec.assignName t' value' (M.right w)) := by
  unfold Exec.assignName
  revert hresolve
  generalize (M.left w).store.resolve t.lexeme (M.left w).current = r,
    (M.right w).store.resolve t'.lexeme (M.right w).current = r'
  intro hresolve
  cases hresolve with
  | found howner _ => exact hbind _ _ howner
  | unbound => exact .halted hsound hunbound

theorem defineName {name name' : String} (hleft : (M.left w).current < (M.left w).store.size)
    (hright : (M.right w).current < (M.right w).store.size)
    (hbind : M.EndsAlike w (fun _ _ _ => True)
      (.ok () { M.left w with store := (M.left w).store.bind (M.left w).current name value })
      (.ok () { M.right w with store := (M.right w).store.bind (M.right w).current name' value' })) :
    M.EndsAlike w (fun _ _ _ => True) (Exec.defineName name value (M.left w))
      (Exec.defineName name' value' (M.right w)) := by
  unfold Exec.defineName defineIn
  rw [if_pos hleft, if_pos hright]
  exact hbind

end

end EndsAlike

end Companions

end GradedScript
