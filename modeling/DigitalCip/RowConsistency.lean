import DigitalCip.Invariant.Runs

/-!
# Document row consistency

No constraint of the schema ties the columns of `documents` to the status.  They
agree all the same, in every run: a chunk message is only accepted once the text
is there, an embed message once the chunks are, and the one statement that would
clear a column, the manual retry's, is always rolled back.
-/

namespace DigitalCip
open Resumable

/-- **Row consistency**, in every reachable state of the whole system. -/
theorem row_consistent {cfg : Config} {s : Sys} (h : Reachable cfg anyStep s) {d : DocId}
    {row : Document} (hrow : s.world.db.documents d = some row) :
    (row.status ∈ [.ocrCompleted, .chunking, .chunked, .embedding, .embedded] →
      (∃ text, row.rawText = some text ∧ ¬ Blank text) ∧ row.ocrCompletedAt.isSome) ∧
    (row.status ∈ [.chunked, .embedding, .embedded] →
      s.world.db.chunksOf d ≠ [] ∧ row.chunkedAt.isSome) ∧
    (row.status = .embedded → row.embeddedAt.isSome) ∧
    (row.status = .failed → row.failureReason.isSome ∧ row.failedAt.isSome) := by
  have hc := (reachable_base h).db.rows d row hrow
  refine ⟨fun hs => hc.recognised ?_, fun hs => hc.divided ?_, hc.embedded, hc.failed⟩
  · simp only [List.mem_cons, List.not_mem_nil, or_false] at hs
    rcases hs with hs | hs | hs | hs | hs <;> rw [hs] <;> rfl
  · simp only [List.mem_cons, List.not_mem_nil, or_false] at hs
    rcases hs with hs | hs | hs <;> rw [hs] <;> rfl

/-- The document of the sample run, once it is embedded. -/
theorem row_consistent_sample : ∃ (s : Sys) (row : Document),
    s.world.db.documents 1 = some row ∧ row.status = .embedded ∧
      (∃ text, row.rawText = some text ∧ ¬ Blank text) ∧ s.world.db.chunksOf 1 ≠ [] ∧
      row.embeddedAt.isSome := by
  obtain ⟨s, hs, hstatus⟩ := exists_run (step sampleConfig) .init wholeRun
    (fun s : Sys => (s.world.db.documents 1).map Document.status = some .embedded) (by decide)
  obtain ⟨row, hrow, hrs⟩ := Option.map_eq_some_iff.mp hstatus
  obtain ⟨htext, hchunks, hat, -⟩ := row_consistent (.of_run hs) hrow
  exact ⟨s, row, hrow, hrs, (htext (by simp [hrs])).1, (hchunks (by simp [hrs])).1, hat hrs⟩

end DigitalCip
