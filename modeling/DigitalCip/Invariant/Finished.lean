import DigitalCip.Invariant.Runs

/-!
# Finished documents

A document is finished when it is `embedded` or `failed`; every worker skips it
from then on.  The workers' updates do not look at the status, so a document
stays finished only in runs in which no update hits one that is
(`keepsFinished`).
-/

namespace DigitalCip
open Resumable

/-- The document is there, and it is `embedded` or `failed`. -/
def Db.Finished (db : Db) (d : DocId) : Prop :=
  ∃ row, db.documents d = some row ∧ row.status.terminal = true

instance (db : Db) (d : DocId) : Decidable (db.Finished d) :=
  decidable_of_iff ((db.documents d).any fun row => row.status.terminal)
    (by simp [Db.Finished, Option.any_eq_true])

/-- No update of a finished document takes effect. -/
def keepsFinished (s : Sys) : Label → Prop
  | .run i .ok => ∀ d u, s.pending i = some (.updateDocument d u) → ¬ s.world.db.Finished d
  | _ => True

/-- No insert of a dedupe row by the chunker fails. -/
def chunkerRecords (s : Sys) : Label → Prop
  | .run i (.fail _) => ∀ row, s.pending i = some (.recordProcessed row) → row.stage ≠ .chunk
  | _ => True

section Finished
variable {cfg : Config} {ok : Sys → Label → Prop} {s s' : Sys} {l : Label} {d : DocId}

/-- The row of a finished document stays as it is unless an update hits it. -/
theorem row_of_step {row : Document} (hs : Reachable cfg ok s) (hl : keepsFinished s l)
    (hstep : step cfg s l = some s') (hrow : s.world.db.documents d = some row)
    (hterminal : row.status.terminal = true) : s'.world.db.documents d = some row := by
  rcases world_of_step hstep with he | hmove | ⟨i, a, c, k, v, rfl, hp, hreply⟩
  · rw [he, hrow]
  · rw [db_of_envMove hmove, hrow]
  have hd := does_of_reply hreply
  by_cases hc : ∀ d' u, c ≠ .updateDocument d' u
  · exact documents_of_does hd hc (reachable_base hs).db hrow
  · obtain ⟨d', u, rfl⟩ : ∃ d' u, c = .updateDocument d' u := by
      by_contra hno
      exact hc fun d' u he => hno ⟨d', u, he⟩
    obtain rfl : a = .ok := by
      cases a <;> simp [reply] at hreply
      rfl
    have hne : d ≠ d' := by
      rintro rfl
      exact hl d u (Pool.pending_of_progs hp) ⟨row, hrow, hterminal⟩
    have hdb : s'.world.db = s.world.db.updateDocument d' u := congrArg World.db hd
    rw [hdb, Db.updateDocument_documents, if_neg hne, hrow]

/-- **A finished document stays finished** unless an update hits it. -/
theorem finished_of_step (hs : Reachable cfg ok s) (hl : keepsFinished s l)
    (hstep : step cfg s l = some s') (h : s.world.db.Finished d) : s'.world.db.Finished d := by
  obtain ⟨row, hrow, hterminal⟩ := h
  exact ⟨row, row_of_step hs hl hstep hrow hterminal, hterminal⟩

end Finished
end DigitalCip
