import LocalMind.Plugins.JevAsk
import LocalMind.Stream.Fallible

namespace LocalMind.Jev
open Concurrent Windows
set_option autoImplicit true

/-! Where each file of a call is reported, and what a verdict leaves out. -/

theorem lastBreak_le (h : lastBreak text room = some i) : i ≤ room := by
  have hmem := List.mem_of_find?_eq_some h
  rw [List.mem_reverse, List.mem_range] at hmem
  exact Nat.le_of_lt_succ hmem

theorem cutAt_le (text : JsString) (room : Nat) : cutAt text room ≤ room := by
  rw [cutAt]
  cases h : lastBreak text room with
  | none => exact Nat.le_refl room
  | some i =>
    dsimp only
    split
    · exact lastBreak_le h
    · exact Nat.le_refl room

def askSpans (text : JsString) : List (Nat × Nat) :=
  fileSpans ASK_CHUNK_CHARS ASK_OVERLAP_LINES text

/-- The file of a record: one that was read, and whose text it holds. -/
def ReadFrom (decode : List UInt8 → JsString) (files : List AskFile) (m : FileMeta) : Prop :=
  ∃ f ∈ files, ∃ buf, f.shown = m.shown ∧ f.access = .granted ∧ f.buf = some buf ∧
    decode buf = m.whole

def fileTasks (tasks : List QueuedChunk) (i : Nat) : List QueuedChunk :=
  tasks.filter fun t => t.file = i

/-- What is queued before the `i`-th file. -/
def earlierTasks (tasks : List QueuedChunk) (i : Nat) : List QueuedChunk :=
  tasks.filter fun t => t.file < i

def taskChars (tasks : List QueuedChunk) : Nat := total (fun t => t.chunk.text.length) tasks

def numbered (i : Nat) (chunks : List FileChunk) : List QueuedChunk :=
  chunks.zipIdx.map fun c => ⟨i, c.2, c.1⟩

/-- One file that was queued: how much of it, and as which chunks. -/
structure Taken (decode : List UInt8 → JsString) (files : List AskFile)
    (tasks : List QueuedChunk) (i : Nat) (m : FileMeta) : Prop where
  read : ReadFrom decode files m
  kept : m.kept <+: m.whole
  max : m.kept.length ≤ ASK_FILE_MAX_CHARS
  budget : taskChars (earlierTasks tasks i) + m.kept.length ≤ ASK_BUDGET_CHARS
  lines : m.lines = lineCount m.whole
  n : m.n = (askChunks m.kept).length
  mark : m.mark.isSome = true ↔ m.kept ≠ m.whole
  queued : fileTasks tasks i = numbered i (askChunks m.kept)

/-- What the loop over the files has done with the ones it has come to. -/
structure Filed (decode : List UInt8 → JsString) (skipped : List Skipped) (files : List AskFile)
    (p : Prepared) : Prop where
  names : (p.skipped.map Skipped.shown ++ (p.notChecked ++ p.metas.map FileMeta.shown)).Perm
    (skipped.map Skipped.shown ++ files.map AskFile.shown)
  planned : p.planned = taskChars p.tasks
  below : ∀ t ∈ p.tasks, t.file < p.metas.length
  once : (p.tasks.map fun t => (t.file, t.part)).Nodup
  taken : ∀ i m, p.metas[i]? = some m → Taken decode files p.tasks i m

theorem Filed.new (decode : List UInt8 → JsString) (skipped : List Skipped) :
    Filed decode skipped [] (Prepared.new skipped) := by
  constructor
  · exact List.Perm.refl _
  · rfl
  · intro t ht
    cases ht
  · exact List.nodup_nil
  · intro i m hm
    cases hm

theorem Taken.more (h : Taken decode files tasks i m) (f : AskFile) :
    Taken decode (files ++ [f]) tasks i m where
  read := by
    obtain ⟨g, hg, hread⟩ := h.read
    exact ⟨g, List.mem_append_left _ hg, hread⟩
  kept := h.kept
  max := h.max
  budget := h.budget
  lines := h.lines
  n := h.n
  mark := h.mark
  queued := h.queued

theorem perm_last {xs e fs : List α} (a : α) (h : xs.Perm (e ++ fs)) :
    (a :: xs).Perm (e ++ (fs ++ [a])) := by
  rw [← List.append_assoc]
  exact (List.Perm.cons a h).trans (List.perm_append_singleton a (e ++ fs)).symm

theorem Filed.skip (h : Filed decode skipped files p) (f : AskFile) (reason : SkipReason) :
    Filed decode skipped (files ++ [f]) (p.skip f.shown reason) := by
  constructor
  · rw [Prepared.skip, List.map_append, List.map_append, List.append_assoc]
    apply List.Perm.trans _ (perm_last f.shown h.names)
    exact List.perm_middle
  · exact h.planned
  · exact h.below
  · exact h.once
  · intro i m hm
    exact (h.taken i m hm).more f

theorem Filed.notCheck (h : Filed decode skipped files p) (f : AskFile) :
    Filed decode skipped (files ++ [f]) { p with notChecked := p.notChecked ++ [f.shown] } := by
  constructor
  · rw [List.map_append, List.append_assoc]
    apply List.Perm.trans _ (perm_last f.shown h.names)
    apply List.Perm.trans (List.Perm.append_left _ List.perm_middle)
    exact List.perm_middle
  · exact h.planned
  · exact h.below
  · exact h.once
  · intro i m hm
    exact (h.taken i m hm).more f

/-! One more file queued. -/

theorem taskChars_append (ts us : List QueuedChunk) :
    taskChars (ts ++ us) = taskChars ts + taskChars us := total_append _ ts us

theorem taskChars_numbered (i : Nat) (chunks : List FileChunk) :
    taskChars (numbered i chunks) = chunkChars chunks := by
  rw [taskChars, numbered, total_map, chunkChars]
  have hzip : ∀ (k : Nat) (cs : List FileChunk),
      total (fun c : FileChunk × Nat => c.1.text.length) (cs.zipIdx k) =
        total (fun c => c.text.length) cs := by
    intro k cs
    induction cs generalizing k with
    | nil => rfl
    | cons c cs ih => rw [List.zipIdx_cons, total, total, ih]
  exact hzip 0 chunks

theorem numbered_file (h : t ∈ numbered i chunks) : t.file = i := by
  obtain ⟨c, _, rfl⟩ := List.mem_map.1 h
  rfl

theorem numbered_keys (i : Nat) (chunks : List FileChunk) :
    ((numbered i chunks).map fun t => (t.file, t.part)) =
      (List.range chunks.length).map fun k => (i, k) := by
  rw [numbered, List.map_map]
  have hparts : chunks.zipIdx.map Prod.snd = List.range chunks.length := by
    rw [List.zipIdx_map_snd, List.range_eq_range']
  rw [← hparts, List.map_map]
  rfl

theorem fileTasks_append_ne (h : i ≠ j) (tasks : List QueuedChunk) (chunks : List FileChunk) :
    fileTasks (tasks ++ numbered j chunks) i = fileTasks tasks i := by
  rw [fileTasks, fileTasks, List.filter_append, List.append_right_eq_self,
    List.filter_eq_nil_iff]
  intro t ht hfile
  rw [numbered_file ht, decide_eq_true_eq] at hfile
  exact h hfile.symm

theorem earlierTasks_append (h : i ≤ j) (tasks : List QueuedChunk) (chunks : List FileChunk) :
    earlierTasks (tasks ++ numbered j chunks) i = earlierTasks tasks i := by
  rw [earlierTasks, earlierTasks, List.filter_append, List.append_right_eq_self,
    List.filter_eq_nil_iff]
  intro t ht hfile
  rw [numbered_file ht, decide_eq_true_eq] at hfile
  omega

theorem fileTasks_last (h : ∀ t ∈ tasks, t.file < j) (chunks : List FileChunk) :
    fileTasks (tasks ++ numbered j chunks) j = numbered j chunks := by
  have hold : tasks.filter (fun t => t.file = j) = [] := by
    rw [List.filter_eq_nil_iff]
    intro t ht hfile
    have := h t ht
    rw [decide_eq_true_eq] at hfile
    omega
  have hnew : (numbered j chunks).filter (fun t => t.file = j) = numbered j chunks := by
    rw [List.filter_eq_self]
    intro t ht
    exact decide_eq_true (numbered_file ht)
  rw [fileTasks, List.filter_append, hold, hnew, List.nil_append]

theorem earlierTasks_all (h : ∀ t ∈ tasks, t.file < j) : earlierTasks tasks j = tasks := by
  rw [earlierTasks, List.filter_eq_self]
  intro t ht
  exact decide_eq_true (h t ht)

theorem Filed.queue (h : Filed decode skipped files p) (hread : f.access = .granted)
    (hbuf : f.buf = some buf) (hkept : kept <+: decode buf) (hne : p.room ≠ 0)
    (hroom : kept.length ≤ p.room)
    (hmark : mark.isSome = true ↔ kept ≠ decode buf) :
    Filed decode skipped (files ++ [f]) (p.queue f.shown (decode buf) kept mark) := by
  have hbelow := h.below
  have hplanned := h.planned
  have hpos : kept.length ≤ ASK_FILE_MAX_CHARS ∧
      p.planned + kept.length ≤ ASK_BUDGET_CHARS := by
    rw [Prepared.room] at hroom hne
    omega
  constructor
  · rw [Prepared.queue, List.map_append, List.map_append]
    apply List.Perm.trans _ (perm_last f.shown h.names)
    rw [← List.append_assoc, ← List.append_assoc, ← List.append_assoc]
    exact List.perm_append_singleton f.shown _
  · rw [Prepared.queue, hplanned]
    change _ = taskChars (p.tasks ++ numbered p.metas.length (askChunks kept))
    rw [taskChars_append, taskChars_numbered]
  · intro t ht
    rw [Prepared.queue, List.length_append]
    obtain ht | ht := List.mem_append.1 ht
    · have := hbelow t ht
      omega
    · rw [numbered_file ht]
      exact Nat.lt_succ_self _
  · change ((p.tasks ++ numbered p.metas.length (askChunks kept)).map _).Nodup
    rw [List.map_append, numbered_keys]
    apply List.Nodup.append h.once
    · apply List.Nodup.map _ List.nodup_range
      intro k l hkl
      exact (Prod.ext_iff.1 hkl).2
    · intro key hold hnew
      obtain ⟨t, ht, rfl⟩ := List.mem_map.1 hold
      obtain ⟨k, _, hk⟩ := List.mem_map.1 hnew
      have hlt := hbelow t ht
      have hfile := (Prod.ext_iff.1 hk).1
      dsimp only at hfile
      omega
  · intro i m hm
    change (p.metas ++ [_])[i]? = some m at hm
    change Taken decode _ (p.tasks ++ numbered p.metas.length (askChunks kept)) i m
    by_cases hi : i < p.metas.length
    · rw [List.getElem?_append_left hi] at hm
      have hold := (h.taken i m hm).more f
      constructor
      · exact hold.read
      · exact hold.kept
      · exact hold.max
      · rw [earlierTasks_append (Nat.le_of_lt hi)]
        exact hold.budget
      · exact hold.lines
      · exact hold.n
      · exact hold.mark
      · rw [fileTasks_append_ne (Nat.ne_of_lt hi)]
        exact hold.queued
    · rw [List.getElem?_append_right (Nat.le_of_not_lt hi), List.getElem?_singleton] at hm
      split at hm
      · rename_i hzero
        have hlen : i = p.metas.length := by omega
        subst hlen
        cases hm
        constructor
        · exact ⟨f, List.mem_append_right _ List.mem_cons_self, buf, rfl, hread, hbuf, rfl⟩
        · exact hkept
        · exact hpos.1
        · rw [earlierTasks_append (Nat.le_refl _), earlierTasks_all hbelow, ← hplanned]
          exact hpos.2
        · rfl
        · rfl
        · exact hmark
        · exact fileTasks_last hbelow _
      · cases hm

theorem Filed.take (h : Filed decode skipped files p) (hread : f.access = .granted)
    (hbuf : f.buf = some buf) :
    Filed decode skipped (files ++ [f]) (p.take f.shown (decode buf)) := by
  rw [Prepared.take]
  by_cases hroom : p.room = 0 ∨
      (p.room < (decode buf).length ∧ p.metas ≠ [] ∧ p.room < ASK_CHUNK_CHARS)
  · rw [if_pos hroom]
    exact h.notCheck f
  · rw [if_neg hroom]
    rw [not_or] at hroom
    by_cases hlong : p.room < (decode buf).length
    · rw [if_pos hlong]
      have hcut := cutAt_le (decode buf) p.room
      have hlen : ((decode buf).take (cutAt (decode buf) p.room)).length =
          cutAt (decode buf) p.room := by
        rw [List.length_take]
        omega
      apply h.queue hread hbuf (List.take_prefix _ _) hroom.1
      · rw [hlen]
        exact hcut
      · constructor
        · intro _ heq
          have := congrArg List.length heq
          omega
        · intro _
          rfl
    · rw [if_neg hlong]
      apply h.queue hread hbuf (List.prefix_refl _) hroom.1 (Nat.le_of_not_lt hlong)
      constructor
      · intro hsome
        cases hsome
      · intro hne
        exact absurd rfl hne

theorem Filed.prepareFile (h : Filed decode skipped files p)
    (hfile : p.prepareFile decode f = .ok q) : Filed decode skipped (files ++ [f]) q := by
  rw [Prepared.prepareFile] at hfile
  split at hfile
  · cases hfile
  · cases hfile
    exact h.skip f .denied
  · rename_i hgranted
    split at hfile
    · cases hfile
      exact h.skip f .unreadable
    · rename_i buf hbuf
      split at hfile
      · cases hfile
        exact h.skip f .binary
      · cases hfile
        exact h.take hgranted hbuf

theorem Filed.prepare (h : Filed decode skipped files p) (hfs : p.prepare decode fs = .ok q) :
    Filed decode skipped (files ++ fs) q := by
  induction fs generalizing files p with
  | nil =>
    cases hfs
    rw [List.append_nil]
    exact h
  | cons f fs ih =>
    obtain ⟨p', hp', hfs⟩ := Fallible.bind_eq_ok_iff.1 hfs
    have hrest := ih (h.prepareFile hp') hfs
    rw [List.append_assoc] at hrest
    exact hrest

/-! Which chunks are answered. -/

def Answered (p : Prepared) (done : List Nat) (i k : Nat) : Prop :=
  ∃ t ∈ done, ∃ chunk, p.tasks[t]? = some ⟨i, k, chunk⟩

/-- Every chunk is answered once at most, and the parts of a file are its answered chunks. -/
structure Recorded (p : Prepared) (done : List Nat) (s : Pool α) : Prop where
  nodup : done.Nodup
  below : ∀ t ∈ done, t < p.tasks.length
  parts : ∀ i, (s.parts i).map Part.chunk = Pool.chunksOf p.chunks i done

variable {p : Prepared} {m : FileMeta} {c d : FileChunk} {s : Pool α} {t u i k : Nat}

theorem Taken.task (h : Taken decode files p.tasks i m) (hk : k < m.n) :
    ∃ t < p.tasks.length, ∃ chunk, p.tasks[t]? = some ⟨i, k, chunk⟩ := by
  rw [h.n] at hk
  have hmem : (⟨i, k, (askChunks m.kept)[k]⟩ : QueuedChunk) ∈ fileTasks p.tasks i := by
    rw [h.queued, numbered]
    apply List.mem_map.2
    refine ⟨((askChunks m.kept)[k], k), ?_, rfl⟩
    rw [List.mem_zipIdx_iff_getElem?]
    exact List.getElem?_eq_getElem hk
  obtain ⟨t, ht, heq⟩ := List.mem_iff_getElem.1 (List.mem_filter.1 hmem).1
  refine ⟨t, ht, (askChunks m.kept)[k], ?_⟩
  rw [List.getElem?_eq_getElem ht, heq]

/-- The line was sent whole, and each piece of it is in a chunk that was answered. -/
structure LineAnswered (whole kept : JsString) (answered : Nat → Prop) (i : Nat) : Prop where
  sent : ∃ line, (whole.splitOn newline)[i]? = some line ∧
    (kept.splitOn newline)[i]? = some line
  held : ∀ b piece, (filePieces ASK_CHUNK_CHARS kept)[b]? = some piece → piece.no = i + 1 →
    ∃ (k : Nat) (span : Nat × Nat), (askSpans kept)[k]? = some span ∧ answered k ∧
      span.1 ≤ b ∧ b < span.2

/-- What a call that returns owes for the files it was given. -/
structure Accounted (decode : List UInt8 → JsString) (skipped : List Skipped)
    (files : List AskFile) (p : Prepared) (done : List Nat) (out : Outcome β) : Prop where
  /-- each file is in one of the three lists -/
  once : (out.skipped.map Skipped.shown ++
      (out.notChecked ++ out.verdicts.map Verdict.path)).Perm
    (skipped.map Skipped.shown ++ files.map AskFile.shown)
  /-- of each file with chunks, no more was cut into chunks than the limits leave -/
  taken : ∀ i m, p.metas[i]? = some m → Taken decode files p.tasks i m
  /-- a verdict is partial if its file was cut or a chunk was not answered, and else no line of the
  file is missing -/
  verdicts : ∀ v ∈ out.verdicts, ∃ i m, p.metas[i]? = some m ∧ v.path = m.shown ∧
    (∃ k, Answered p done i k) ∧
    (v.mark.isSome = true ↔ m.kept ≠ m.whole ∨ ∃ k < m.n, ¬ Answered p done i k) ∧
    (v.mark = none → ∀ line < m.lines, LineAnswered m.whole m.kept (Answered p done i) line)

end LocalMind.Jev
