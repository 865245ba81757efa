import DigitalCip.Invariant.View

/-!
# The chunker finds a text that it can divide

A chunk message is published after the text of its document has been recognised,
and a text that has been recognised stays.  So the chunker never comes to a
permanent error: its document exists, has a text, and the text has words.  This
holds under any discipline that lets the chunker keep the message it handles.
-/

namespace DigitalCip
open Resumable

/-- The calls of a worker that gives nothing up: it neither settles its delivery nor
marks a document `failed`. -/
def Hopeful (c : Call) : Prop := ¬ Settles c ∧ ∀ d u, c = .updateDocument d u → u.status ≠ .failed

namespace Chunker

/-- `process` has not failed for good. -/
def Tried (i : Nat) (env : Envelope) (r : Option GoError) (w : World) : Prop :=
  Handles w i .chunk env ∧ ∀ reason, r ≠ some (.permanent reason)

section Process
variable {D : Discipline} {i : Nat} {env : Envelope} {w : World} {cfg : Config}
  (hD : D.Keeps i (fun w => Handles w i .chunk env) Hopeful)

include hD

theorem publishNext_tried (n : Nat) (hw : Handles w i .chunk env) :
    wp D.rules i (publishNext env n) (Tried i env) (fun _ _ => False) w := by
  unfold publishNext
  refine hD.perform_then ⟨id, by simp⟩ hw ?_
  intro r w₁ h₁
  cases r with
  | error e => exact ⟨h₁, by simp⟩
  | ok id =>
    refine hD.perform_then ⟨fun h => h rfl, by simp⟩ h₁ fun r w₂ h₂ => ⟨h₂, ?_⟩
    cases r <;> simp [errorOf]

theorem chunkDocument_tried {rawText : Text} (htext : ∃ c ∈ rawText, goSpace c = false)
    (hw : Handles w i .chunk env) :
    wp D.rules i (chunkDocument cfg env rawText) (Tried i env) (fun _ _ => False) w := by
  unfold chunkDocument
  dsimp only
  have hpieces := split_ne_nil htext cfg.chunkSize cfg.chunkOverlap
  rw [if_neg (by simpa using hpieces)]
  refine hD.perform_then ⟨id, by simp⟩ hw ?_
  intro r w₁ h₁
  cases r with
  | error e => exact ⟨h₁, by simp⟩
  | ok =>
    refine hD.perform_then ⟨id, by simp⟩ h₁ ?_
    intro r w₂ h₂
    cases r with
    | error e => exact ⟨h₂, by simp⟩
    | ok =>
      refine hD.perform_then ⟨id, by simp⟩ h₂ ?_
      intro _ w₃ h₃
      exact hD.perform_then ⟨id, by simp⟩ h₃ fun _ w₄ h₄ => publishNext_tried hD _ h₄

/-- **`process` does not fail for good**: what its two last permanent errors are about
does not happen. -/
theorem process_tried (hknown : ∀ w, D.known w → Base w) (hne : env.documentId ≠ 0)
    (hw : Handles w i .chunk env) :
    wp D.rules i (process cfg env) (Tried i env) (fun _ _ => False) w := by
  unfold process
  rw [if_neg hne]
  refine hD.perform_then ⟨id, by simp⟩ hw ?_
  intro seen w₁ h₁
  match seen with
  | .error _ => exact ⟨h₁, by simp⟩
  | .ok true => exact ⟨h₁, by simp⟩
  | .ok false =>
    refine hD.perform_does ⟨id, by simp⟩ h₁ (fun _ _ h => ⟨h, by simp⟩) ?_
    intro w found w₂ hk h h₂ hd
    have hb := hknown w hk
    obtain ⟨row, rfl, hrow, rfl⟩ := h.fetched hb hd
    obtain ⟨t, ht, hblank⟩ := h.text hb hrow
    have htext := exists_goText_of_not_blank hblank
    dsimp only
    rw [ht, Option.getD_some]
    split
    · exact ⟨h₂, by simp⟩
    split
    · rename_i hempty
      obtain rfl : t = [] := List.isEmpty_iff.mp hempty
      exact absurd rfl hblank
    refine hD.perform_then ⟨id, by simp⟩ h₂ ?_
    intro r w₃ h₃
    cases r with
    | error e => exact ⟨h₃, by simp⟩
    | ok =>
      exact hD.perform_then ⟨id, by simp⟩ h₃ fun _ w₄ h₄ => chunkDocument_tried hD htext h₄

end Process
end Chunker
end DigitalCip
