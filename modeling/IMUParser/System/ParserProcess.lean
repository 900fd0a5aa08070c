import IMUParser.Receive.Composition
import IMUParser.System.LoopTester

/-!
# The parser process among others

The parser process as a component of a system, which makes one read or ends one pause at a time,
while other components write to the port and receive the datagrams. Whatever they do and however
the steps are ordered, it is in the state in which the loop of `main` is behind the reads made so
far (`ParserProcess.Refines`): a run can be cut at any read, so the state after one more read
depends on the state before it only. What has been proved of all reads and all numbers of calls
therefore holds in every state that the component reaches.

The parser in the loop test is one of these components (`loop_refines`).

## Main definitions

* `ParserProcess`, `ParserProcess.iterate`, `ParserProcess.Refines`.

## Main results

* `ParserProcess.Refines.read`, `ParserProcess.Refines.wake`.
* `loop_refines`.
-/

namespace IMUParser

open Transition

/-- The state of the parser process, and what it has broadcast so far. -/
structure ParserProcess where
  inputBuffer : List UInt8
  phase : ParserPhase
  broadcasts : List ParsedPacket

namespace ParserProcess

/-- The first call has started. -/
def initial : ParserProcess := ⟨[], .reading 0, []⟩

/-- The end of an iteration of the loop of `processIMU_Frames`. -/
def iterate (s : ParserProcess) : Except Fault Iteration → ParserProcess
  | .error fault => { s with phase := .faulted fault }
  | .ok (.next inputBuffer indexInBuffer) =>
    { s with inputBuffer := inputBuffer, phase := .reading indexInBuffer }
  | .ok (.sent packet inputBuffer) =>
    { s with inputBuffer := inputBuffer, phase := .sleeping,
             broadcasts := s.broadcasts ++ [packet] }

/-- The state as that of a run of the loop of `main` that has used up its reads. -/
def outcome (s : ParserProcess) : Except Fault MainState :=
  match s.phase with
  | .faulted fault => .error fault
  | _ => .ok ⟨s.inputBuffer, [], s.broadcasts⟩

/-- The process is where the loop of `main` is behind the given reads, in the call that follows its
broadcasts. -/
def Refines (o : ByteOrder) (s : ParserProcess) (reads : List ReadResult) : Prop :=
  mainLoop o (s.broadcasts.length + 1) [] reads = s.outcome

variable {o : ByteOrder} {s : ParserProcess} {reads : List ReadResult} {index : UInt8}

theorem refines_initial : Refines o .initial [] := rfl

/-- One more read, with at least one call to go. -/
theorem Refines.mainLoop_concat (h : s.Refines o reads) (reading : s.phase = .reading index)
    (r : ReadResult) (n : ℕ) :
    mainLoop o (s.broadcasts.length + 1 + n) [] (reads ++ [r]) =
      (whileLoop o (littleEndian o) s.inputBuffer index [r] >>= afterCall o n).map
        (MainState.behind s.broadcasts) := by
  have hloop : mainLoop o (s.broadcasts.length + 1) [] reads =
      .ok ⟨s.inputBuffer, [], s.broadcasts⟩ := by
    rw [h, outcome, reading]
  have hleft : s.broadcasts.length + 1 + n - s.broadcasts.length = n + 1 := by omega
  rw [mainLoop_append, hloop, ok_bind, hleft, List.nil_append, mainLoop_succ o n _ index]

/-- **One more read.** -/
theorem Refines.read (h : s.Refines o reads) (reading : s.phase = .reading index)
    (r : ReadResult) :
    (s.iterate (loopBody o (littleEndian o) s.inputBuffer index r)).Refines o (reads ++ [r]) := by
  have hconcat := h.mainLoop_concat reading r
  simp only [whileLoop] at hconcat
  cases hbody : loopBody o (littleEndian o) s.inputBuffer index r with
  | error fault =>
    rw [hbody] at hconcat
    exact hconcat 0
  | ok iteration =>
    rw [hbody] at hconcat
    cases iteration with
    | next inputBuffer index' =>
      refine (hconcat 0).trans (congrArg Except.ok ?_)
      rw [MainState.behind, List.append_nil]
      rfl
    | sent packet inputBuffer =>
      -- the broadcast ends a call, and another one waits
      rw [Refines, iterate, List.length_append]
      exact hconcat 1

/-- The end of a pause. -/
theorem Refines.wake (h : s.Refines o reads) (sleeping : s.phase = .sleeping) :
    Refines o { s with phase := .reading 0 } reads := by
  rw [Refines, outcome, sleeping] at h
  exact h

/-- Without a fault, the loop of `main` has read all bytes. -/
theorem Refines.mainLoop_eq (h : s.Refines o reads) (hs : ∀ fault, s.phase ≠ .faulted fault) :
    mainLoop o (s.broadcasts.length + 1) [] reads = .ok ⟨s.inputBuffer, [], s.broadcasts⟩ := by
  rw [h, outcome]
  cases hphase : s.phase with
  | reading => rfl
  | sleeping => rfl
  | faulted fault => exact absurd hphase (hs fault)

/-- If the loop of `main` does not fault, neither has the process. -/
theorem Refines.not_faulted (h : s.Refines o reads)
    (hok : ∀ n, ∃ m, mainLoop o n [] reads = .ok m) (fault : Fault) : s.phase ≠ .faulted fault := by
  intro hphase
  obtain ⟨m, hm⟩ := hok (s.broadcasts.length + 1)
  rw [Refines, outcome, hphase, hm] at h
  cases h

end ParserProcess

/-! ### The parser in the loop test -/

/-- The read that a step makes. -/
def LoopLabel.read? : LoopLabel → Option ReadResult
  | .read r => some r
  | .send => none
  | .receive => none
  | .wake => none

/-- The parser process in a state of the loop test; its broadcasts are the datagrams produced. -/
structure LoopState.ParserIs (o : ByteOrder) (s : LoopState) (process : ParserProcess) : Prop where
  inputBuffer : process.inputBuffer = s.inputBuffer
  phase : process.phase = s.parser
  produced : s.produced = process.broadcasts.map (ParsedPacket.image o)

variable {o : ByteOrder} {packets : Stream'.Seq Packet} {s s' : LoopState} {l : LoopLabel}
  {reads : List ReadResult} {process : ParserProcess}

theorem LoopState.ParserIs.iterate (h : s.ParserIs o process) (result : Except Fault Iteration) :
    (s.iterate o result).ParserIs o (process.iterate result) := by
  cases result with
  | error fault => exact ⟨h.inputBuffer, rfl, h.produced⟩
  | ok iteration =>
    cases iteration with
    | next => exact ⟨rfl, rfl, h.produced⟩
    | sent => exact ⟨rfl, rfl, by simp [LoopState.iterate, ParserProcess.iterate, h.produced]⟩

/-- **The step lemma.** -/
theorem LoopState.ParserIs.step (h : s.ParserIs o process) (hrefines : process.Refines o reads)
    (hstep : LoopStep o packets s l s') :
    ∃ process', s'.ParserIs o process' ∧ process'.Refines o (reads ++ l.read?.toList) := by
  cases hstep with
  | send =>
    exact ⟨process, ⟨h.inputBuffer, h.phase, h.produced⟩, by simpa [LoopLabel.read?]⟩
  | receive =>
    exact ⟨process, ⟨h.inputBuffer, h.phase, h.produced⟩, by simpa [LoopLabel.read?]⟩
  | wake sleeping =>
    exact ⟨{ process with phase := .reading 0 }, ⟨h.inputBuffer, rfl, h.produced⟩,
      by simpa [LoopLabel.read?] using hrefines.wake (h.phase.trans sleeping)⟩
  | @read index r rest reading =>
    have hread := hrefines.read (h.phase.trans reading) r
    rw [h.inputBuffer] at hread
    have hs : LoopState.ParserIs o
        { s with port := rest, bytesRead := s.bytesRead + r.bytes.length } process :=
      ⟨h.inputBuffer, h.phase, h.produced⟩
    exact ⟨_, hs.iterate _, hread⟩

/-- **The parser of the loop test.** After any steps, the datagrams it has produced are the images
of the packets that the loop of `main` broadcasts for the reads it has made, and it holds the
buffer that the loop of `main` is left with. -/
theorem loop_refines (o : ByteOrder) (packets : Stream'.Seq Packet) (labels : List LoopLabel)
    (s : LoopState) (h : Run (LoopStep o packets) .initial labels s) :
    ∃ m, mainLoop o (s.produced.length + 1) [] (labels.filterMap LoopLabel.read?) = .ok m ∧
      m.inputBuffer = s.inputBuffer ∧ m.unread = [] ∧
      m.broadcasts.map (ParsedPacket.image o) = s.produced := by
  have hsim : ∃ process, s.ParserIs o process ∧
      process.Refines o (labels.filterMap LoopLabel.read?) := by
    induction h with
    | start => exact ⟨.initial, ⟨rfl, rfl, rfl⟩, ParserProcess.refines_initial⟩
    | @next labels s s' l _ hstep ih =>
      obtain ⟨process, hprocess, hrefines⟩ := ih
      have happend : (labels ++ [l]).filterMap LoopLabel.read? =
          labels.filterMap LoopLabel.read? ++ l.read?.toList := by
        rw [List.filterMap_append]
        cases l <;> rfl
      rw [happend]
      exact hprocess.step hrefines hstep
  obtain ⟨process, ⟨hbuffer, hphase, hproduced⟩, hrefines⟩ := hsim
  have hagree := (h.invariant loopInvariant_initial fun _ _ _ hs hstep => hs.step hstep).agreement
  have hloop := hrefines.mainLoop_eq fun fault => hphase ▸ hagree.not_faulted fault
  rw [hproduced, List.length_map]
  exact ⟨_, hloop, hbuffer, rfl, rfl⟩

/-- A packet with a header in its payload, sent and read in two parts, with a failing read before
the second one. -/
theorem loop_refines_one_frame :
    ∃ labels s, Run (LoopStep .little (.ofList [⟨1, 0x7FF01CAF, 3, 4⟩])) .initial labels s ∧
      s.produced.length = 1 ∧
      ∃ m, mainLoop .little (s.produced.length + 1) [] (labels.filterMap LoopLabel.read?) = .ok m ∧
        m.inputBuffer = s.inputBuffer ∧ m.unread = [] ∧
        m.broadcasts.map (ParsedPacket.image .little) = s.produced := by
  let P : Packet := ⟨1, 0x7FF01CAF, 3, 4⟩
  have hstart : Run (LoopStep .little (.ofList [P])) .initial [] .initial := .start
  have hsend := hstart.next (.send (P := P) rfl rfl)
  have hpart := hsend.next (.read (r := .data (P.frame.take 13) (by decide) (by decide)) rfl
    (show _ = P.frame.take 13 ++ P.frame.drop 13 by decide))
  have hfail := hpart.next (.read (r := .fail true)
    (show _ = ParserPhase.reading 0 by decide +kernel) (show _ = [] ++ P.frame.drop 13 by
      decide +kernel))
  have hrest := hfail.next (.read (r := .data (P.frame.drop 13) (by decide) (by decide))
    (show _ = ParserPhase.reading 0 by decide +kernel)
    (show _ = P.frame.drop 13 ++ [] by decide +kernel))
  exact ⟨_, _, hrest, by decide +kernel, loop_refines .little _ _ _ hrest⟩

end IMUParser
