import PoQ.JsonText
import PoQ.Lib.Runs

/-!
# The file that leaders write

`blockchain_work` of `poet_client.cpp`, run by any number of threads in any number of processes. A thread
opens the file for appending, waits for the lock of the file, and prints two lines, with a pause between
them; it gives the lock back and closes the file. What it prints stays in the buffer of its stream: closing
the stream writes it, when the lock has been given back already, and so does the end of a process.
-/

namespace PoQ

/-- What the buffer of a stream holds. -/
def streamSize : ℕ := 4096

/-- Where a thread is in `blockchain_work`. -/
inductive WriterPc
  | idle
  | opened
  | locked
  | started
  | finished
  | unlocked
  | closed
  /-- Its process has ended. -/
  | gone
deriving DecidableEq, Repr

/-- A thread in `blockchain_work`, with the times that it has printed. -/
structure Writer where
  pc : WriterPc
  buffer : List UInt8
  start : Option ℕ
  finish : Option ℕ
deriving DecidableEq, Repr

/-- The clock, the file, the thread whose stream has the lock, and all threads. -/
structure Blockchain where
  now : ℕ
  file : List UInt8
  owner : Option ℕ
  writers : ℕ → Writer

/-- What happens next, to the clock or in a thread. -/
inductive WriterEvent
  | tick
  | fopen (i : ℕ)
  | flock (i : ℕ)
  | starts (i : ℕ)
  | finishes (i : ℕ)
  | unlock (i : ℕ)
  | fclose (i : ℕ)
  /-- The process of the thread ends, with its streams written out or not. -/
  | exit (i : ℕ) (flushed : Bool)
deriving DecidableEq, Repr

/-- A line of the file, where `time` gives the text of a time. -/
def writerLine (does : String) (time : ℕ → List UInt8) (node : UInt32) (t : ℕ) : List UInt8 :=
  ascii "Node " ++ decimal node.toNat ++ ascii does ++ time t ++ ascii " (" ++ decimal (t % 2 ^ 64) ++
    ascii ")\n"

/-- The line before the pause. -/
def startLine : (ℕ → List UInt8) → UInt32 → ℕ → List UInt8 := writerLine " starts writing at "

/-- The line behind it. -/
def finishLine : (ℕ → List UInt8) → UInt32 → ℕ → List UInt8 := writerLine " finishes writing at "

/-- What a thread has printed. -/
def Writer.record (time : ℕ → List UInt8) (node : UInt32) (w : Writer) : List UInt8 :=
  w.start.elim [] (startLine time node) ++ w.finish.elim [] (finishLine time node)

namespace Blockchain

def initial (file : List UInt8) : Blockchain := ⟨0, file, none, fun _ => ⟨.idle, [], none, none⟩⟩

/-- Another place of a thread. -/
def set (s : Blockchain) (i : ℕ) (w : Writer) : Blockchain :=
  { s with writers := Function.update s.writers i w }

/-- `fprintf` by a thread. A text that does not fit behind what is in the buffer is written, and what is in
the buffer before it. -/
def fprintf (s : Blockchain) (i : ℕ) (w : Writer) (text : List UInt8) : Blockchain :=
  if w.buffer.length + text.length ≤ streamSize then s.set i { w with buffer := w.buffer ++ text }
  else { s.set i { w with buffer := [] } with file := s.file ++ w.buffer ++ text }

/-- The buffer of a thread is written. -/
def fflush (s : Blockchain) (i : ℕ) (pc : WriterPc) : Blockchain :=
  { s.set i { s.writers i with pc := pc, buffer := [] } with file := s.file ++ (s.writers i).buffer }

/-- The lock is free again, if it was that of the thread. -/
def release (s : Blockchain) (i : ℕ) : Blockchain :=
  { s with owner := if s.owner = some i then none else s.owner }

/-- One step of `blockchain_work`. A step that is not enabled is blocked. -/
def next (time : ℕ → List UInt8) (node : ℕ → UInt32) (s : Blockchain) :
    WriterEvent → Except Abort Blockchain
  | .tick => .ok { s with now := s.now + 1 }
  | .fopen i =>
    if (s.writers i).pc = .idle then .ok (s.set i { s.writers i with pc := .opened }) else .error .blocked
  | .flock i =>
    if (s.writers i).pc = .opened ∧ s.owner = none then
      .ok { s.set i { s.writers i with pc := .locked } with owner := some i }
    else .error .blocked
  | .starts i =>
    if (s.writers i).pc = .locked then
      .ok (s.fprintf i { s.writers i with pc := .started, start := some s.now }
        (startLine time (node i) s.now))
    else .error .blocked
  | .finishes i =>
    if (s.writers i).pc = .started then
      .ok (s.fprintf i { s.writers i with pc := .finished, finish := some s.now }
        (finishLine time (node i) s.now))
    else .error .blocked
  | .unlock i =>
    if (s.writers i).pc = .finished then .ok ((s.set i { s.writers i with pc := .unlocked }).release i)
    else .error .blocked
  | .fclose i => if (s.writers i).pc = .unlocked then .ok (s.fflush i .closed) else .error .blocked
  | .exit i flushed =>
    if (s.writers i).pc ∈ [.idle, .closed, .gone] then .error .blocked
    else if flushed then .ok ((s.fflush i .gone).release i)
    else .ok ((s.set i { s.writers i with pc := .gone, buffer := [] }).release i)

variable {time : ℕ → List UInt8} {node : ℕ → UInt32} {s t : Blockchain} {e : WriterEvent}

/-- What a step does, with what it needs. -/
inductive Does (time : ℕ → List UInt8) (node : ℕ → UInt32) (s : Blockchain) :
    WriterEvent → Blockchain → Prop
  | tick : Does time node s .tick { s with now := s.now + 1 }
  | fopen (i : ℕ) : (s.writers i).pc = .idle →
    Does time node s (.fopen i) (s.set i { s.writers i with pc := .opened })
  | flock (i : ℕ) : (s.writers i).pc = .opened → s.owner = none →
    Does time node s (.flock i) { s.set i { s.writers i with pc := .locked } with owner := some i }
  | starts (i : ℕ) : (s.writers i).pc = .locked →
    Does time node s (.starts i) (s.fprintf i { s.writers i with pc := .started, start := some s.now }
      (startLine time (node i) s.now))
  | finishes (i : ℕ) : (s.writers i).pc = .started →
    Does time node s (.finishes i) (s.fprintf i { s.writers i with pc := .finished, finish := some s.now }
      (finishLine time (node i) s.now))
  | unlock (i : ℕ) : (s.writers i).pc = .finished →
    Does time node s (.unlock i) ((s.set i { s.writers i with pc := .unlocked }).release i)
  | fclose (i : ℕ) : (s.writers i).pc = .unlocked → Does time node s (.fclose i) (s.fflush i .closed)
  | exit (i : ℕ) : (s.writers i).pc ∉ [.idle, .closed, .gone] →
    Does time node s (.exit i true) ((s.fflush i .gone).release i)
  | kill (i : ℕ) : (s.writers i).pc ∉ [.idle, .closed, .gone] →
    Does time node s (.exit i false) ((s.set i { s.writers i with pc := .gone, buffer := [] }).release i)

theorem does_of_next (h : s.next time node e = .ok t) : Does time node s e t := by
  cases e with
  | tick =>
    cases h
    exact .tick
  | fopen i =>
    obtain ⟨hpc, rfl⟩ := Except.ite_eq_ok h
    exact .fopen i hpc
  | flock i =>
    obtain ⟨⟨hpc, howner⟩, rfl⟩ := Except.ite_eq_ok h
    exact .flock i hpc howner
  | starts i =>
    obtain ⟨hpc, rfl⟩ := Except.ite_eq_ok h
    exact .starts i hpc
  | finishes i =>
    obtain ⟨hpc, rfl⟩ := Except.ite_eq_ok h
    exact .finishes i hpc
  | unlock i =>
    obtain ⟨hpc, rfl⟩ := Except.ite_eq_ok h
    exact .unlock i hpc
  | fclose i =>
    obtain ⟨hpc, rfl⟩ := Except.ite_eq_ok h
    exact .fclose i hpc
  | exit i flushed =>
    rw [next] at h
    split at h
    · cases h
    · next hpc =>
      rcases flushed with _ | _
      · cases h
        exact .kill i hpc
      · cases h
        exact .exit i hpc

/-! ## What is in the buffers -/

theorem length_decimal_le {n k : ℕ} (hk : 0 < k) (h : n < 10 ^ k) : (decimal n).length ≤ k := by
  rw [decimal, List.length_map]
  exact (Nat.length_toDigits_le_iff (by decide) hk).mpr h

theorem length_writerLine_le (htime : ∀ t, (time t).length < 80) (does : String) (node : UInt32) (t : ℕ) :
    (writerLine does time node t).length ≤ (ascii does).length + 118 := by
  have hnode := length_decimal_le (n := node.toNat) (k := 10) (by decide) (by have := node.toNat_lt; omega)
  have ht := length_decimal_le (n := t % 2 ^ 64) (k := 20) (by decide) (by omega)
  have htext := htime t
  have hhead : (ascii "Node ").length = 5 := rfl
  have hopen : (ascii " (").length = 2 := rfl
  have hclose : (ascii ")\n").length = 2 := rfl
  simp only [writerLine, List.length_append]
  omega

theorem length_startLine_le (htime : ∀ t, (time t).length < 80) (node : UInt32) (t : ℕ) :
    (startLine time node t).length ≤ 137 :=
  length_writerLine_le htime _ node t

theorem length_finishLine_le (htime : ∀ t, (time t).length < 80) (node : UInt32) (t : ℕ) :
    (finishLine time node t).length ≤ 139 :=
  length_writerLine_le htime _ node t

/-- How far a thread is, and what it has printed. -/
inductive Stage (time : ℕ → List UInt8) (node : UInt32) : Writer → Prop
  | before {pc : WriterPc} : pc ∈ [.idle, .opened, .locked] → Stage time node ⟨pc, [], none, none⟩
  | started (a : ℕ) : Stage time node ⟨.started, startLine time node a, some a, none⟩
  | finished {pc : WriterPc} (a f : ℕ) : pc ∈ [.finished, .unlocked] →
    Stage time node ⟨pc, startLine time node a ++ finishLine time node f, some a, some f⟩
  | closed (a f : ℕ) : Stage time node ⟨.closed, [], some a, some f⟩
  | gone (start finish : Option ℕ) : Stage time node ⟨.gone, [], start, finish⟩

namespace Stage

variable {n : UInt32} {w : Writer}

theorem buffer_eq (h : Stage time n w) (hpc : w.pc ∉ [.closed, .gone]) : w.buffer = w.record time n := by
  cases h with
  | before | finished => rfl
  | started => exact (List.append_nil _).symm
  | closed | gone => simp at hpc

theorem finished_of_closed (h : Stage time n w) (hpc : w.pc = .closed) :
    ∃ a f, w.start = some a ∧ w.finish = some f := by
  cases h with
  | before hmem | finished _ _ hmem =>
    cases hpc
    exact absurd hmem (by decide)
  | closed a f => exact ⟨a, f, rfl, rfl⟩
  | started | gone => cases hpc

/-- A thread goes on and prints nothing. -/
theorem goOn (h : Stage time n w) {pc : WriterPc}
    (hpc : w.pc = .idle ∧ pc = .opened ∨ w.pc = .opened ∧ pc = .locked ∨ w.pc = .finished ∧ pc = .unlocked) :
    Stage time n { w with pc := pc } := by
  rcases hpc with ⟨hpc, rfl⟩ | ⟨hpc, rfl⟩ | ⟨hpc, rfl⟩
  all_goals
    cases h with
    | before hmem =>
      cases hpc
      first | exact .before (by decide) | exact absurd hmem (by decide)
    | finished a f hmem =>
      cases hpc
      first | exact .finished a f (by decide) | exact absurd hmem (by decide)
    | started | closed | gone => cases hpc

theorem close (h : Stage time n w) (hpc : w.pc = .unlocked) :
    Stage time n { w with pc := .closed, buffer := [] } := by
  cases h with
  | finished a f => exact .closed a f
  | before hmem =>
    cases hpc
    exact absurd hmem (by decide)
  | started | closed | gone => cases hpc

/-- What is printed before the pause fits in the buffer. -/
theorem starts {i : ℕ} (htime : ∀ t, (time t).length < 80) (h : Stage time (node i) (s.writers i))
    (hpc : (s.writers i).pc = .locked) :
    (s.writers i).start = none ∧ (s.writers i).finish = none ∧
      s.fprintf i { s.writers i with pc := .started, start := some s.now } (startLine time (node i) s.now) =
        s.set i ⟨.started, startLine time (node i) s.now, some s.now, none⟩ := by
  generalize s.writers i = w at h hpc
  cases h with
  | before =>
    have hfits := length_startLine_le htime (node i) s.now
    refine ⟨rfl, rfl, ?_⟩
    rw [fprintf, if_pos (by simp only [List.length_nil, streamSize]; omega), List.nil_append]
  | finished _ _ hmem =>
    cases hpc
    exact absurd hmem (by decide)
  | started | closed | gone => cases hpc

/-- And so does what is printed behind it. -/
theorem finishes {i : ℕ} (htime : ∀ t, (time t).length < 80) (h : Stage time (node i) (s.writers i))
    (hpc : (s.writers i).pc = .started) :
    ∃ a, (s.writers i).start = some a ∧ (s.writers i).finish = none ∧
      s.fprintf i { s.writers i with pc := .finished, finish := some s.now }
        (finishLine time (node i) s.now) =
      s.set i ⟨.finished, startLine time (node i) a ++ finishLine time (node i) s.now, some a,
        some s.now⟩ := by
  generalize s.writers i = w at h hpc
  cases h with
  | started a =>
    have hfits := length_startLine_le htime (node i) a
    have hfits' := length_finishLine_le htime (node i) s.now
    refine ⟨a, rfl, rfl, ?_⟩
    rw [fprintf, if_pos (by simp only [streamSize]; omega)]
  | before hmem | finished _ _ hmem =>
    cases hpc
    exact absurd hmem (by decide)
  | closed | gone => cases hpc

end Stage

/-! ## Whole runs -/

/-- How far the threads are. The records in the file are those of threads that have closed it or whose
process has ended, in the order `log`. -/
structure Orderly (time : ℕ → List UInt8) (node : ℕ → UInt32) (file : List UInt8) (s : Blockchain)
    (log : List ℕ) : Prop where
  stage : ∀ i, Stage time (node i) (s.writers i)
  holds : ∀ i, (s.writers i).pc ∈ [.locked, .started, .finished] ↔ s.owner = some i
  file : s.file = file ++ log.flatMap fun i => (s.writers i).record time (node i)
  nodup : log.Nodup
  ended : ∀ i ∈ log, (s.writers i).pc ∈ [.closed, .gone]
  closed : ∀ i, (s.writers i).pc = .closed → i ∈ log

namespace Orderly

variable {file : List UInt8} {log : List ℕ} {i : ℕ} {w : Writer}

theorem initial (file : List UInt8) : Orderly time node file (initial file) [] where
  stage _ := .before (by decide)
  holds _ := by simp [Blockchain.initial]
  file := (List.append_nil _).symm
  nodup := List.nodup_nil
  ended _ h := absurd h List.not_mem_nil
  closed _ h := nomatch h

theorem notMem_log (h : Orderly time node file s log) (hpc : (s.writers i).pc ∉ [.closed, .gone]) :
    i ∉ log :=
  fun hi => hpc (h.ended i hi)

/-- The records in the file are not touched. -/
theorem flatMap_update (h : Orderly time node file s log) (hi : (s.writers i).pc ∉ [.closed, .gone])
    (w : Writer) :
    (log.flatMap fun j => (Function.update s.writers i w j).record time (node j)) =
      log.flatMap fun j => (s.writers j).record time (node j) := by
  refine List.flatMap_congr fun j hj => ?_
  rw [Function.update_of_ne (ne_of_mem_of_not_mem hj (h.notMem_log hi))]

/-- A thread that has not closed the file goes on. -/
theorem set (h : Orderly time node file s log) (hi : (s.writers i).pc ∉ [.closed, .gone])
    (hw : Stage time (node i) w) (hpc : w.pc ≠ .closed) {owner : Option ℕ}
    (howner : ∀ j, (Function.update s.writers i w j).pc ∈ [.locked, .started, .finished] ↔
      owner = some j) :
    Orderly time node file { s.set i w with owner := owner } log where
  stage j := by
    rcases eq_or_ne j i with rfl | hne
    · simpa [Blockchain.set] using hw
    · simpa [Blockchain.set, hne] using h.stage j
  holds := howner
  file := h.file.trans (congrArg _ (h.flatMap_update hi w).symm)
  nodup := h.nodup
  ended j hj := by
    have hne := ne_of_mem_of_not_mem hj (h.notMem_log hi)
    simpa [Blockchain.set, hne] using h.ended j hj
  closed j hj := by
    rcases eq_or_ne j i with rfl | hne
    · exact absurd (by simpa [Blockchain.set] using hj) hpc
    · exact h.closed j (by simpa [Blockchain.set, hne] using hj)

/-- A thread comes to its end, and what it has printed is written. -/
theorem flush (h : Orderly time node file s log) (hi : (s.writers i).pc ∉ [.closed, .gone]) {pc : WriterPc}
    (hpc : pc ∈ [.closed, .gone]) (hw : Stage time (node i) { s.writers i with pc := pc, buffer := [] })
    {owner : Option ℕ}
    (howner : ∀ j, (Function.update s.writers i { s.writers i with pc := pc, buffer := [] } j).pc ∈
      [.locked, .started, .finished] ↔ owner = some j) :
    Orderly time node file { s.fflush i pc with owner := owner } (log ++ [i]) where
  stage j := by
    rcases eq_or_ne j i with rfl | hne
    · simpa [Blockchain.fflush, Blockchain.set] using hw
    · simpa [Blockchain.fflush, Blockchain.set, hne] using h.stage j
  holds := howner
  file := by
    have hrest := h.flatMap_update hi { s.writers i with pc := pc, buffer := [] }
    simp only [Blockchain.fflush, Blockchain.set, List.flatMap_append, hrest, List.flatMap_singleton,
      Function.update_self, h.file, (h.stage i).buffer_eq hi, List.append_assoc]
    rfl
  nodup := by
    rw [← List.concat_eq_append]
    exact h.nodup.concat (h.notMem_log hi)
  ended j hj := by
    rcases eq_or_ne j i with rfl | hne
    · simpa [Blockchain.fflush, Blockchain.set] using hpc
    · have hj : j ∈ log := by simpa [hne] using hj
      simpa [Blockchain.fflush, Blockchain.set, hne] using h.ended j hj
  closed j hj := by
    rcases eq_or_ne j i with rfl | hne
    · simp
    · exact List.mem_append_left _ (h.closed j (by simpa [Blockchain.fflush, Blockchain.set, hne] using hj))

theorem holds_same (h : Orderly time node file s log)
    (hw : w.pc ∈ [.locked, .started, .finished] ↔ (s.writers i).pc ∈ [.locked, .started, .finished]) (j : ℕ) :
    (Function.update s.writers i w j).pc ∈ [.locked, .started, .finished] ↔ s.owner = some j := by
  rcases eq_or_ne j i with rfl | hne
  · rw [Function.update_self, hw]
    exact h.holds j
  · rw [Function.update_of_ne hne]
    exact h.holds j

theorem holds_locked (h : Orderly time node file s log) (howner : s.owner = none)
    (hw : w.pc ∈ [.locked, .started, .finished]) (j : ℕ) :
    (Function.update s.writers i w j).pc ∈ [.locked, .started, .finished] ↔ some i = some j := by
  rcases eq_or_ne j i with rfl | hne
  · rw [Function.update_self]
    exact iff_of_true hw rfl
  · rw [Function.update_of_ne hne, h.holds j, howner]
    exact iff_of_false (Option.some_ne_none j).symm fun heq => hne (Option.some.inj heq).symm

theorem holds_released (h : Orderly time node file s log) (hw : w.pc ∉ [.locked, .started, .finished])
    (j : ℕ) :
    (Function.update s.writers i w j).pc ∈ [.locked, .started, .finished] ↔
      (if s.owner = some i then none else s.owner) = some j := by
  rcases eq_or_ne j i with rfl | hne
  · rw [Function.update_self]
    refine iff_of_false hw ?_
    split
    · exact (Option.some_ne_none j).symm
    · next hother => exact hother
  · rw [Function.update_of_ne hne, h.holds j]
    split
    · next howner =>
      rw [howner]
      exact iff_of_false (fun heq => hne (Option.some.inj heq).symm) (Option.some_ne_none j).symm
    · exact Iff.rfl

theorem step (htime : ∀ t, (time t).length < 80) (h : Orderly time node file s log)
    (hstep : Does time node s e t) : ∃ log', Orderly time node file t log' := by
  cases hstep with
  | tick => exact ⟨log, { h with }⟩
  | fopen i hpc =>
    refine ⟨log, h.set (by simp [hpc]) ((h.stage i).goOn (.inl ⟨hpc, rfl⟩)) (by simp) (h.holds_same ?_)⟩
    simp [hpc]
  | flock i hpc howner =>
    refine ⟨log, h.set (by simp [hpc]) ((h.stage i).goOn (.inr (.inl ⟨hpc, rfl⟩))) (by simp) ?_⟩
    exact h.holds_locked howner (by simp)
  | starts i hpc =>
    rw [((h.stage i).starts htime hpc).2.2]
    refine ⟨log, h.set (by simp [hpc]) (.started s.now) (by simp) (h.holds_same ?_)⟩
    simp [hpc]
  | finishes i hpc =>
    obtain ⟨a, -, -, hprint⟩ := (h.stage i).finishes htime hpc
    rw [hprint]
    refine ⟨log, h.set (by simp [hpc]) (.finished a s.now (by decide)) (by simp) (h.holds_same ?_)⟩
    simp [hpc]
  | unlock i hpc =>
    refine ⟨log, h.set (by simp [hpc]) ((h.stage i).goOn (.inr (.inr ⟨hpc, rfl⟩))) (by simp) ?_⟩
    exact h.holds_released (by simp)
  | fclose i hpc =>
    refine ⟨log ++ [i], h.flush (by simp [hpc]) (by decide) ((h.stage i).close hpc) (h.holds_same ?_)⟩
    simp [hpc]
  | exit i hpc =>
    refine ⟨log ++ [i], h.flush (by simp_all) (by decide) (.gone _ _) (h.holds_released (by simp))⟩
  | kill i hpc =>
    refine ⟨log, h.set (by simp_all) (.gone _ _) (by simp) (h.holds_released (by simp))⟩

end Orderly

/-- A thread has printed nothing later than `a`. -/
def Before (w : Writer) (a : ℕ) : Prop := (∀ b, w.start = some b → b ≤ a) ∧ ∀ g, w.finish = some g → g ≤ a

/-- The times that threads have printed: those of two threads do not overlap. -/
structure Apart (s : Blockchain) : Prop where
  past : ∀ i, Before (s.writers i) s.now
  inOrder : ∀ i a f, (s.writers i).start = some a → (s.writers i).finish = some f → a ≤ f
  holder : ∀ i a, s.owner = some i → (s.writers i).start = some a → ∀ j, j ≠ i → Before (s.writers j) a
  apart : ∀ i j a f, i ≠ j → (s.writers i).start = some a → (s.writers i).finish = some f →
    (∀ b, (s.writers j).start = some b → f ≤ b) ∨ Before (s.writers j) a

namespace Apart

theorem initial (file : List UInt8) : (initial file).Apart where
  past _ := ⟨fun _ h => (nomatch h), fun _ h => (nomatch h)⟩
  inOrder _ _ _ h := nomatch h
  holder _ _ h := nomatch h
  apart _ _ _ _ _ h := nomatch h

theorem before_mono {w : Writer} {a b : ℕ} (h : Before w a) (hab : a ≤ b) : Before w b :=
  ⟨fun c hc => (h.1 c hc).trans hab, fun c hc => (h.2 c hc).trans hab⟩

/-- A step that prints nothing, and gives the lock only to a thread that has printed nothing. -/
theorem of_same (h : s.Apart) (hstart : ∀ i, (t.writers i).start = (s.writers i).start)
    (hfinish : ∀ i, (t.writers i).finish = (s.writers i).finish) (hnow : s.now ≤ t.now)
    (howner : ∀ i a, t.owner = some i → (s.writers i).start = some a → s.owner = some i) : t.Apart := by
  have hbefore (j a : ℕ) : Before (t.writers j) a ↔ Before (s.writers j) a := by
    rw [Before, Before, hstart, hfinish]
  refine ⟨fun i => ?_, fun i => ?_, fun i a hi => ?_, fun i j a f hne => ?_⟩
  · exact (hbefore i _).mpr (before_mono (h.past i) hnow)
  · rw [hstart, hfinish]
    exact h.inOrder i
  · rw [hstart]
    intro ha j hj
    exact (hbefore j a).mpr (h.holder i a (howner i a hi ha) ha j hj)
  · rw [hstart, hfinish, hstart, hbefore]
    exact h.apart i j a f hne

variable {i : ℕ} {w : Writer}

/-- The thread that has the lock prints the first time. -/
theorem starts (h : s.Apart) (howner : s.owner = some i) (hstart : w.start = some s.now)
    (hfinish : w.finish = none) : (s.set i w).Apart where
  past j := by
    rcases eq_or_ne j i with rfl | hne
    · simp [Blockchain.set, Before, hstart, hfinish]
    · simpa [Blockchain.set, hne] using h.past j
  inOrder j a f := by
    rcases eq_or_ne j i with rfl | hne
    · simp [Blockchain.set, hfinish]
    · simpa [Blockchain.set, hne] using h.inOrder j a f
  holder k a hk ha j hj := by
    cases howner.symm.trans hk
    have ha : s.now = a := by simpa [Blockchain.set, hstart] using ha
    simpa [Blockchain.set, hj, ← ha] using h.past j
  apart k j a f hne ha hf := by
    rcases eq_or_ne k i with rfl | hk
    · simp [Blockchain.set, hfinish] at hf
    have hka : (s.writers k).start = some a := by simpa [Blockchain.set, hk] using ha
    have hkf : (s.writers k).finish = some f := by simpa [Blockchain.set, hk] using hf
    rcases eq_or_ne j i with rfl | hj
    · -- everything that is finished is finished now
      refine .inl fun b hb => ?_
      have hb : s.now = b := by simpa [Blockchain.set, hstart] using hb
      exact hb ▸ (h.past k).2 f hkf
    · simpa [Blockchain.set, hj] using h.apart k j a f hne hka hkf

/-- And the second one. -/
theorem finishes (h : s.Apart) (howner : s.owner = some i) {a : ℕ} (hold : (s.writers i).start = some a)
    (hstart : w.start = some a) (hfinish : w.finish = some s.now) : (s.set i w).Apart where
  past j := by
    rcases eq_or_ne j i with rfl | hne
    · simpa [Blockchain.set, Before, hstart, hfinish] using (h.past j).1 a hold
    · simpa [Blockchain.set, hne] using h.past j
  inOrder j b f := by
    rcases eq_or_ne j i with rfl | hne
    · simp only [Blockchain.set, Function.update_self, hstart, hfinish, Option.some.injEq]
      intro hb hf
      exact hb ▸ hf ▸ (h.past j).1 a hold
    · simpa [Blockchain.set, hne] using h.inOrder j b f
  holder k b hk hb j hj := by
    cases howner.symm.trans hk
    have hb : a = b := by simpa [Blockchain.set, hstart] using hb
    simpa [Blockchain.set, hj, ← hb] using h.holder i a howner hold j hj
  apart k j b f hne hb hf := by
    rcases eq_or_ne k i with rfl | hk
    · have hb : a = b := by simpa [Blockchain.set, hstart] using hb
      refine .inr ?_
      simpa [Blockchain.set, hne.symm, ← hb] using h.holder k a howner hold j hne.symm
    have hkb : (s.writers k).start = some b := by simpa [Blockchain.set, hk] using hb
    have hkf : (s.writers k).finish = some f := by simpa [Blockchain.set, hk] using hf
    rcases eq_or_ne j i with rfl | hj
    · refine .inl fun c hc => ?_
      have hc : a = c := by simpa [Blockchain.set, hstart] using hc
      exact hc ▸ (h.holder j a howner hold k hk).2 f hkf
    · simpa [Blockchain.set, hj] using h.apart k j b f hne hkb hkf

/-- A thread takes another place and prints nothing. -/
theorem moved (h : s.Apart) (hwriters : t.writers = Function.update s.writers i w)
    (hstart : w.start = (s.writers i).start) (hfinish : w.finish = (s.writers i).finish)
    (hnow : t.now = s.now)
    (howner : ∀ j a, t.owner = some j → (s.writers j).start = some a → s.owner = some j) : t.Apart := by
  have hsame (j : ℕ) : (t.writers j).start = (s.writers j).start ∧
      (t.writers j).finish = (s.writers j).finish := by
    rw [hwriters]
    rcases eq_or_ne j i with rfl | hne
    · rw [Function.update_self]
      exact ⟨hstart, hfinish⟩
    · rw [Function.update_of_ne hne]
      exact ⟨rfl, rfl⟩
  exact h.of_same (fun j => (hsame j).1) (fun j => (hsame j).2) hnow.ge howner

theorem owner_of_released {j : ℕ} (h : (if s.owner = some i then none else s.owner) = some j) :
    s.owner = some j := by
  split at h
  · cases h
  · exact h

theorem step {file : List UInt8} {log : List ℕ} (htime : ∀ t, (time t).length < 80) (h : s.Apart)
    (hs : Orderly time node file s log) (hstep : Does time node s e t) : t.Apart := by
  cases hstep with
  | tick => exact h.of_same (fun _ => rfl) (fun _ => rfl) (Nat.le_succ _) fun _ _ howner _ => howner
  | fopen i hpc => exact h.moved rfl rfl rfl rfl fun _ _ howner _ => howner
  | flock i hpc hfree =>
    refine h.moved rfl rfl rfl rfl fun j a howner ha => ?_
    -- the thread that is given the lock has printed nothing
    cases howner
    have hstage := hs.stage i
    generalize s.writers i = w at hpc ha hstage
    cases hstage with
    | before => cases ha
    | finished _ _ hmem =>
      cases hpc
      exact absurd hmem (by decide)
    | started | closed | gone => cases hpc
  | starts i hpc =>
    rw [((hs.stage i).starts htime hpc).2.2]
    exact h.starts ((hs.holds i).mp (by simp [hpc])) rfl rfl
  | finishes i hpc =>
    obtain ⟨a, ha, -, hprint⟩ := (hs.stage i).finishes htime hpc
    rw [hprint]
    exact h.finishes ((hs.holds i).mp (by simp [hpc])) ha rfl rfl
  | unlock i hpc => exact h.moved rfl rfl rfl rfl fun _ _ howner _ => owner_of_released howner
  | fclose i hpc => exact h.moved rfl rfl rfl rfl fun _ _ howner _ => howner
  | exit i hpc => exact h.moved rfl rfl rfl rfl fun _ _ howner _ => owner_of_released howner
  | kill i hpc => exact h.moved rfl rfl rfl rfl fun _ _ howner _ => owner_of_released howner

end Apart

/-- Any number of threads of any number of processes write, in any order of their steps, and processes may
end. Behind the old file stand records of threads one after the other, each thread once and none in
between another: both lines of those that have closed the file, and of a process that has ended what it
had printed. The times of two records do not overlap; but the records need not stand in the order of
their times. -/
theorem file_of_runs (htime : ∀ t, (time t).length < 80) {file : List UInt8}
    (h : Runs (fun s e t => s.next time node e = .ok t) (fun _ _ => True) (initial file) s) :
    ∃ log : List ℕ, log.Nodup ∧
      s.file = file ++ log.flatMap (fun i => (s.writers i).record time (node i)) ∧
      (∀ i ∈ log, (s.writers i).pc ∈ [.closed, .gone]) ∧
      (∀ i, (s.writers i).pc = .closed → i ∈ log ∧
        ∃ a f, (s.writers i).start = some a ∧ (s.writers i).finish = some f ∧ a ≤ f) ∧
      ∀ i j a f, i ≠ j → (s.writers i).start = some a → (s.writers i).finish = some f →
        (∀ b, (s.writers j).start = some b → f ≤ b) ∨ Before (s.writers j) a := by
  obtain ⟨⟨log, hs⟩, hapart⟩ : (∃ log, Orderly time node file s log) ∧ s.Apart := by
    refine Runs.invariant (I := fun s => (∃ log, Orderly time node file s log) ∧ s.Apart) ?_ h
      ⟨⟨[], .initial file⟩, .initial file⟩
    intro s e t hs _ hstep
    obtain ⟨⟨log, hs⟩, hapart⟩ := hs
    exact ⟨hs.step htime (does_of_next hstep), hapart.step htime hs (does_of_next hstep)⟩
  refine ⟨log, hs.nodup, hs.file, hs.ended, fun i hi => ⟨hs.closed i hi, ?_⟩, hapart.apart⟩
  obtain ⟨a, f, ha, hf⟩ := (hs.stage i).finished_of_closed hi
  exact ⟨a, f, ha, hf, hapart.inOrder i a f ha hf⟩

/-- Two threads, of which the first one to take the lock is the last one to close the file. -/
def overtaken : List WriterEvent :=
  [.fopen 0, .fopen 1, .flock 0, .starts 0, .tick, .finishes 0, .unlock 0, .flock 1, .starts 1, .tick,
    .finishes 1, .unlock 1, .fclose 1, .fclose 0]

theorem file_of_runs_overtaken :
    ∃ s, overtaken.foldlM (next (fun _ => []) fun i => i.toUInt32) (initial []) = .ok s ∧
      s.file = ascii "Node 1 starts writing at  (1)\nNode 1 finishes writing at  (2)\n" ++
        ascii "Node 0 starts writing at  (0)\nNode 0 finishes writing at  (1)\n" ∧
      ∃ log : List ℕ, log.Nodup ∧
        s.file = log.flatMap fun i => (s.writers i).record (fun _ => []) i.toUInt32 := by
  obtain ⟨s, hrun, hfile⟩ : ∃ s, overtaken.foldlM (next (fun _ => []) fun i => i.toUInt32) (initial []) =
      .ok s ∧ s.file = ascii "Node 1 starts writing at  (1)\nNode 1 finishes writing at  (2)\n" ++
        ascii "Node 0 starts writing at  (0)\nNode 0 finishes writing at  (1)\n" :=
    ⟨_, rfl, by decide⟩
  obtain ⟨log, hlog, hrecords, -⟩ := file_of_runs (fun _ => by decide) (Runs.of_foldlM hrun)
  exact ⟨s, hrun, hfile, log, hlog, hrecords⟩

end Blockchain

end PoQ
