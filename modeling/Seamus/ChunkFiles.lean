-- Where the documents are that `index_file` has taken in: in the chunk in memory, or in one
-- chunk file. A flush resets the chunk also when `persist` could not open its file.
import Seamus.IndexFile

open interleaving seamus.index_file

namespace seamus.chunk_files

/-! ## No document is lost -/

/-- The documents, in the order in which they came in, are those of the chunk files one after
the other and then those in memory, and no two files have one name. -/
structure Kept (s : Indexer) : Prop where
  documents : s.files.flatMap ChunkFile.urls ++ s.mem.urls = s.documents
  files : (s.files.map ChunkFile.chunk).Nodup

/-- A chunk without documents is as after `reset`. -/
structure Fresh (s : Indexer) : Prop where
  new : s.mem.urls = [] → s.mem = .new s.mem.chunk
  reading : ∀ fd doc loc wordSet, s.reader = .words fd doc loc wordSet → s.mem.urls ≠ []

/-- A flush of this turn writes the chunk, unless there is nothing to write. -/
def Saves (turn : Turn) (s : Indexer) : Prop :=
  ∀ opens, flushes turn s = some opens → canCreate opens s = true ∨ s.mem.urls = []

theorem persist_kept (opens : Bool) {s : Indexer} (hs : Kept s)
    (hsaves : canCreate opens s = true ∨ s.mem.urls = []) : Kept (flush opens s) := by
  unfold flush persist
  by_cases hcreate : canCreate opens s = true
  · rw [if_pos hcreate]
    refine ⟨?_, ?_⟩
    · change (s.files ++ [_]).flatMap ChunkFile.urls ++ [] = s.documents
      rw [List.flatMap_append, List.append_nil, ← hs.documents]
      simp
    · change ((s.files ++ [_]).map ChunkFile.chunk).Nodup
      rw [List.map_append]
      refine List.nodup_append.mpr ⟨hs.files, List.nodup_singleton _, ?_⟩
      intro a ha b hb heq
      obtain ⟨file, hfile, rfl⟩ := List.mem_map.mp ha
      rw [List.mem_singleton.mp hb] at heq
      unfold canCreate at hcreate
      simp only [Bool.and_eq_true, Bool.not_eq_true', List.any_eq_false, decide_eq_true_eq] at hcreate
      exact hcreate.2 file hfile heq
  · rw [if_neg hcreate]
    have hempty := hsaves.resolve_left hcreate
    refine ⟨?_, hs.files⟩
    change s.files.flatMap ChunkFile.urls ++ [] = s.documents
    rw [← hs.documents, hempty]

theorem flush_fresh (opens : Bool) (s : Indexer)
    (hreader : ∀ fd doc loc wordSet, s.reader ≠ .words fd doc loc wordSet) :
    Fresh (flush opens s) := by
  refine ⟨fun _ => rfl, ?_⟩
  intro fd doc loc wordSet heq
  unfold flush persist at heq
  split at heq <;> exact absurd heq (hreader fd doc loc wordSet)

theorem step_kept (turn : Turn) (s s' : Indexer) (hs : Kept s ∧ Fresh s) (hsaves : Saves turn s)
    (h : step turn s = some s') : Kept s' ∧ Fresh s' := by
  obtain ⟨hkept, hfresh⟩ := hs
  cases step_change h with
  | move hflush hwords =>
    refine ⟨⟨hkept.documents, hkept.files⟩, hfresh.new, ?_⟩
    intro fd doc loc wordSet hreader
    obtain ⟨fd', hreader'⟩ := hwords fd doc loc wordSet hreader
    exact hfresh.reading fd' doc loc wordSet hreader'
  | @newUrl fd fd' opens buff url hturn hreader hline hurl =>
    have hne : s.mem.urls ++ [url] ≠ [] := by simp
    refine ⟨⟨?_, hkept.files⟩, fun hnil => absurd hnil hne, fun _ _ _ _ _ => hne⟩
    change _ ++ (s.mem.urls ++ [url]) = s.documents ++ [url]
    rw [← List.append_assoc, hkept.documents]
  | @newWord fd fd' doc loc wordSet opens buff word hturn hreader hline hword =>
    have hne : s.mem.urls ≠ [] := hfresh.reading _ _ _ _ hreader
    exact ⟨⟨hkept.documents, hkept.files⟩, fun hnil => absurd hnil hne, fun _ _ _ _ _ => hne⟩
  | @finish fd fd' doc loc wordSet hflush hreader =>
    have hne : s.mem.urls ≠ [] := hfresh.reading _ _ _ _ hreader
    exact ⟨⟨hkept.documents, hkept.files⟩, fun hnil => absurd hnil hne, fun _ _ _ _ _ => hne⟩
  | @flush opens reader hflush hwords =>
    have hkept' : Kept { s with reader } := ⟨hkept.documents, hkept.files⟩
    exact ⟨persist_kept opens hkept' (hsaves opens hflush), flush_fresh opens _ hwords⟩

/-- A turn that flushes resets the chunk, and writes it when it can create the file. -/
theorem step_flush {turn : Turn} {s : Indexer} {opens : Bool} (h : flushes turn s = some opens) :
    ∃ reader, step turn s = some (flush opens { s with reader }) := by
  unfold flushes at h
  split at h
  · rename_i opens' result hreader
    cases h
    refine ⟨s.reader, ?_⟩
    change _ = some (flush opens s)
    simp only [step, hreader]
  · rename_i opens' fd hreader
    split at h <;> cases h
    rename_i hfull
    refine ⟨.header fd, ?_⟩
    simp only [step, goOn, hreader, hfull, if_true]
  · cases h

theorem flush_failed {opens : Bool} {s : Indexer} (h : canCreate opens s = false) :
    flush opens s = { s with mem := .new s.mem.chunk } := by
  unfold flush persist
  rw [h]
  rfl

theorem step_loses (turn : Turn) (s : Indexer) (hs : Kept s ∧ Fresh s) (hsaves : ¬Saves turn s) :
    ∃ s', step turn s = some s' ∧ ¬Kept s' := by
  obtain ⟨opens, hnot⟩ := not_forall.mp hsaves
  obtain ⟨hflush, hneither⟩ := Classical.not_imp.mp hnot
  rw [not_or, Bool.not_eq_true] at hneither
  obtain ⟨reader, hstep⟩ := step_flush hflush
  refine ⟨_, hstep, ?_⟩
  have hfail : canCreate opens { s with reader } = false := hneither.1
  intro hkept
  rw [flush_failed hfail] at hkept
  have hdocs : s.files.flatMap ChunkFile.urls ++ [] = s.documents := hkept.documents
  rw [← hs.1.documents, List.append_cancel_left_eq] at hdocs
  exact hneither.2 hdocs.symm

theorem start_kept (chunk : Nat) : Kept (start chunk) ∧ Fresh (start chunk) :=
  ⟨⟨rfl, List.nodup_nil⟩, fun _ => rfl, fun _ _ _ _ h => by cases h⟩

/-- At every point of a run no document is lost, and a flush that could not open its file
leaves the chunk in memory as it was. -/
structure NothingLost (chunk : Nat) (turns : List Turn) : Prop where
  kept : ∀ k s, exec step (turns.take k) (start chunk) = some s → Kept s
  unchanged : ∀ k turn s s' opens, exec step (turns.take k) (start chunk) = some s →
    turns[k]? = some turn → step turn s = some s' → flushes turn s = some opens →
    canCreate opens s = false → s'.mem = s.mem

theorem meets_take {turns : List Turn} {chunk : Nat} (h : Meets step Saves turns (start chunk))
    {k : Nat} {s : Indexer} (hrun : exec step (turns.take k) (start chunk) = some s) :
    Kept s ∧ Fresh s := by
  have hloses (turn : Turn) (s : Indexer) (hs : Kept s ∧ Fresh s) (hsaves : ¬Saves turn s) :
      ∃ s', step turn s = some s' ∧ ¬(Kept s' ∧ Fresh s') := by
    obtain ⟨s', hstep, hlost⟩ := step_loses turn s hs hsaves
    exact ⟨s', hstep, fun hboth => hlost hboth.1⟩
  exact (always_iff_meets (fun _ hs => hs) step_kept hloses (start_kept chunk)).mpr h k s hrun

/-- No document is lost in a run exactly when each of its flushes with documents in memory
opens its file. -/
theorem nothing_lost_iff (chunk : Nat) (turns : List Turn) :
    NothingLost chunk turns ↔ Meets step Saves turns (start chunk) := by
  have hkept : (∀ k s, exec step (turns.take k) (start chunk) = some s → Kept s) ↔
      Meets step Saves turns (start chunk) :=
    always_iff_meets (fun _ hs => hs.1) step_kept step_loses (start_kept chunk)
  constructor
  · exact fun h => hkept.mp h.kept
  · intro h
    refine ⟨hkept.mpr h, ?_⟩
    intro k turn s s' opens hrun hturn hstep hflush hfail
    have hsaves := meets_at h hrun hturn opens hflush
    rw [hfail] at hsaves
    have hempty : s.mem.urls = [] := hsaves.resolve_left (by decide)
    obtain ⟨reader, hstep'⟩ := step_flush hflush
    have hfail' : canCreate opens { s with reader } = false := hfail
    rw [hstep', flush_failed hfail'] at hstep
    cases hstep
    exact ((meets_take h hrun).2.new hempty).symm

/-- A file that holds one document, with the URL `u` and the word `a`. -/
def oneDocument : InputFile := ⟨DOC_HEADER ++ [117, newline] ++ [97, newline] ++ DOC_END, false⟩

/-- The document is in memory when a flush cannot open the file, and it is nowhere after it. -/
theorem failed_flush_loses : ¬∀ turns : List Turn, NothingLost 0 turns := by
  intro h
  have hkept := (h (.indexFile (some oneDocument) :: List.replicate 6 (.goOn true) ++
    [.flush false])).kept 8
  have hrun : (exec step (.indexFile (some oneDocument) :: List.replicate 6 (.goOn true) ++
      [.flush false]) (start 0)).map (fun s => (s.files, s.mem.urls, s.documents, s.indexedDocs)) =
      some ([], [], [[117]], 1) := by decide +kernel
  obtain ⟨s, hs, hends⟩ := Option.map_eq_some_iff.mp hrun
  simp only [Prod.mk.injEq] at hends
  obtain ⟨hfiles, hurls, hdocuments, _⟩ := hends
  have hdocs := (hkept s hs).documents
  rw [hfiles, hurls, hdocuments] at hdocs
  cases hdocs

end seamus.chunk_files
