import Dockerfile.Proofs.Cache.Recency
import Dockerfile.Session

/-!
# Sessions answer like single hovers

Documents that are kept cannot be told from new ones: whatever was asked before, a query is answered
as if it were the only one. What was asked before shows in the counters alone, and there it decides
exactly which queries find their document kept.

* `askAll_answers` — the answers, and what the cache reflects afterwards
* `answers_and_counters` — the answers and the counters of a session from its start
-/

namespace Dockerfile.Session

variable {s : Session} {n : Nat} {asked : List (List Char)}

/-- **A query** is answered as on its own, and its text is one more that was asked for. -/
theorem ask_answers (h : s.Reflects n Document.ofText asked) (q : Query) :
    (s.ask q).1 = q.answer ∧ (s.ask q).2.Reflects n Document.ofText (asked ++ [q.text]) := by
  refine ⟨?_, h.fetch q.text⟩
  rw [Query.answer, hover, ← h.fetch_fst q.text]
  rfl

/-- **Queries one after the other** are answered as each on its own. -/
theorem askAll_answers (h : s.Reflects n Document.ofText asked) (queries : List Query) :
    (s.askAll queries).1 = queries.map Query.answer
      ∧ (s.askAll queries).2.Reflects n Document.ofText (asked ++ queries.map Query.text) := by
  induction queries generalizing s asked with
  | nil => exact ⟨rfl, by simpa [askAll] using h⟩
  | cons q more ih =>
    obtain ⟨hanswer, hs⟩ := ask_answers h q
    obtain ⟨hanswers, hmore⟩ := ih hs
    refine ⟨?_, ?_⟩
    · rw [List.map_cons, ← hanswer, ← hanswers]
      rfl
    · rw [List.append_assoc] at hmore
      exact hmore

/--
**Keeping documents changes no answer, and what is kept is bounded.**

From the start of a session that may keep `n` documents, each query is answered as on its own. The
hits and misses are as many as the queries, and a document is kept for each text that came up, but
not for more than `n` of them. The next query is a hit exactly if its text came up before and fewer
than `n` other texts came up since; otherwise it is a miss.
-/
theorem answers_and_counters (settings : Settings) (queries : List Query) :
    let n := settings.cacheSize.toNat
    let texts := queries.map Query.text
    let run := (start settings).askAll queries
    run.1 = queries.map Query.answer
      ∧ run.2.hits + run.2.misses = queries.length
      ∧ run.2.size = min n texts.toFinset.card
      ∧ ∀ q : Query, ((run.2.ask q).2.hits = run.2.hits + 1 ↔ CameUpLately n texts q.text)
        ∧ ((run.2.ask q).2.misses = run.2.misses + 1 ↔ ¬ CameUpLately n texts q.text) := by
  intro n texts run
  have hstart : (start settings).Reflects n Document.ofText [] :=
    RecentCache.reflects_empty n Document.ofText
  obtain ⟨hanswers, hrun⟩ := askAll_answers hstart queries
  rw [List.nil_append] at hrun
  refine ⟨hanswers, ?_, hrun.size, fun q => ⟨hrun.hits_fetch_iff, hrun.misses_fetch_iff⟩⟩
  rw [hrun.counted, List.length_map]

end Dockerfile.Session
