import DigitalCip.Discipline
import DigitalCip.Invariant.Footprint

/-!
# The rules for `handle`

The two Python handlers look their message up, fetch the document and skip what is finished
before they come to their own `try` block, and they leave it through the same `except`
clauses.  What a discipline has to know of these parts is said here once, over the stage and
the block.
-/

namespace DigitalCip.Python
open Resumable

section Rules
variable {D : Discipline} {i : Nat} {K : World → Prop} {P : Call → Prop} {S : Stage} {env : Envelope}
  {α : Type} {Q : α → World → Prop} {E : Exc → World → Prop} {w : World}

/-- **The `except` clauses** keep what their two statements keep, and raise. -/
theorem onError_wp (hkeeps : D.Keeps i K P)
    (hupdate : ∀ reason, P (.updateDocument env.documentId
      { status := .failed, failureReason := some reason, failedAt := some .now }))
    (hevent : ∀ e : ProcessingEvent, e.documentId = env.documentId → P (.recordEvent e))
    (hE : ∀ e w, K w → E e w) (e : Exc) (hw : K w) :
    wp D.rules i (onError S env e) Q E w := by
  unfold onError recordEvent
  cases e with
  | permanent reason =>
    refine hkeeps.call_then (hupdate reason) hw hE fun _ w₁ h₁ => ?_
    exact hkeeps.call_then (hevent _ rfl) h₁ hE fun _ w₂ h₂ => hE _ w₂ h₂
  | transient reason | other reason =>
    exact hkeeps.call_then (hevent _ rfl) hw hE fun _ w₁ h₁ => hE _ w₁ h₁

/-- **What comes before the `try` block**: a message that has a dedupe row is skipped, and so is
a document that is finished; one that is missing is a permanent error. -/
theorem handle_wp {skipped : α} {work : Document → Program α} (hkeeps : D.Keeps i K P)
    (hseen : P (.alreadyProcessed env.messageId)) (hfetch : P (.fetchDocument env.documentId))
    (hother : ∀ reason w, K w → E (.other reason) w)
    (hduplicate : ∀ w, D.known w → K w → w.db.alreadyProcessed env.messageId = true → Q skipped w)
    (hmissing : ∀ reason w, D.known w → K w → w.db.documents env.documentId = none →
      E (.permanent reason) w)
    (hfinished : ∀ w document, D.known w → K w → w.db.documents env.documentId = some document →
      document.status.terminal = true → Q skipped w)
    (hwork : ∀ w document, D.known w → K w → w.db.documents env.documentId = some document →
      document.status.terminal = false →
        wp D.rules i (tryCatch (work document) (onError S env)) Q E w) (hw : K w) :
    wp D.rules i (handle S skipped work env) Q E w := by
  unfold handle alreadyProcessed fetchDocument
  refine hkeeps.call_does hseen hw hother ?_
  rintro w₁ seen w₂ hknown h₁ - ⟨rfl, rfl⟩
  cases hdone : w₂.db.alreadyProcessed env.messageId with
  | true => exact hduplicate w₂ hknown h₁ hdone
  | false =>
    simp only [Bool.false_eq_true, if_false]
    refine hkeeps.call_does hfetch h₁ hother ?_
    rintro w₃ found w₄ hknown h₃ - ⟨rfl, rfl⟩
    cases hfound : w₄.db.documents env.documentId with
    | none => exact hmissing _ w₄ hknown h₃ hfound
    | some document =>
      dsimp only
      cases hterminal : document.status.terminal with
      | true => exact hfinished w₄ document hknown h₃ hfound hterminal
      | false => exact hwork w₄ document hknown h₃ hfound hterminal

/-- A handler keeps what its `try` block keeps. -/
theorem handle_keeps {skipped : α} {work : Document → Program α} (hkeeps : D.Keeps i K P)
    (hseen : P (.alreadyProcessed env.messageId)) (hfetch : P (.fetchDocument env.documentId))
    (hupdate : ∀ reason, P (.updateDocument env.documentId
      { status := .failed, failureReason := some reason, failedAt := some .now }))
    (hevent : ∀ e : ProcessingEvent, e.documentId = env.documentId → P (.recordEvent e))
    (hwork : ∀ w document, K w → wp D.rules i (work document) (fun _ => K) (fun _ => K) w)
    (hw : K w) : wp D.rules i (handle S skipped work env) (fun _ => K) (fun _ => K) w := by
  refine handle_wp hkeeps hseen hfetch (fun _ _ h => h) (fun _ _ h _ => h) (fun _ _ _ h _ => h)
    (fun _ _ _ h _ _ => h) (fun w document _ h _ _ => ?_) hw
  exact wp_try (hwork w document h) fun e _ h₁ => onError_wp hkeeps hupdate hevent
    (fun _ _ h => h) e h₁

end Rules
end DigitalCip.Python
