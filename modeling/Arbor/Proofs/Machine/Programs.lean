import Arbor.Proofs.Lowering.Closed
import Arbor.Proofs.Machine.Execution
import Arbor.Proofs.Machine.Loading

/-!
This module contains the runs of whole programs on words: the machine exits as the evaluation ends, and has output the
lines that were printed.
-/

namespace Arbor.Machine

open Agreement Assembly Evaluation
open Lowering (Frame JumpTargets StmtCode labelCount)

def Stops (L : Layout) (lines : List Line) (m : Hart) (outcome : Outcome) (output : List UInt8) : Prop :=
  ∃ m', Reaches L lines m m' ∧ step L lines m' = outcome ∧ m'.core.output = output

section Listing

variable {config : GeneratorConfig} {program : Program} {file : File} {t : Label} {l : Line}

theorem labelCount_listing_le_one (h : Lowering.generate config program = .ok file) :
    labelCount t (listing file) ≤ 1 := by
  have hplaced : (placed (listing file)).Nodup := (List.nodup_append.mp (Lowering.nodup_symbols h)).2.1
  exact Lowering.labelCount_le_one_of_nodup hplaced t

theorem target_listing (h : Lowering.generate config program = .ok file) (hl : l ∈ listing file)
    (ht : l.target? = some t) : .label t ∈ listing file := by
  unfold listing at hl ⊢
  simp only [List.mem_append] at hl ⊢
  rcases hl with ((hentry | hmain) | hexit) | hruntime
  · have hnone : ∀ l ∈ File.entry, l.target? = none := by decide
    rw [hnone l hentry] at ht
    cases ht
  · exact .inl (.inl (.inr (Lowering.target_main h hmain ht)))
  · have hnone : ∀ l ∈ File.exit, l.target? = none := by decide
    rw [hnone l hexit] at ht
    cases ht
  · exact .inr (Lowering.target_runtime h hruntime ht)

theorem codeAt_routine (h : Lowering.generate config program = .ok file) {r : Routine} (hused : r ∈ file.used) :
    ∃ k k', CodeAt (listing file) k r.lines k' := by
  obtain ⟨before, after, husedEq⟩ := List.append_of_mem hused
  have hlisting : listing file =
      (File.entry ++ file.main ++ File.exit ++ before.flatMap fun r => Line.shown config.comments r.lines) ++
        Line.shown config.comments r.lines ++ after.flatMap fun r => Line.shown config.comments r.lines := by
    unfold listing
    rw [Lowering.runtime_eq h, husedEq]
    simp only [List.flatMap_append, List.flatMap_cons, List.append_assoc]
  rw [hlisting]
  exact ⟨_, _, codeAt_shown _ _ _⟩

theorem routine_listing (h : Lowering.generate config program = .ok file) {r : Routine}
    (hr : .jal r.label ∈ listing file) : ∃ k k', CodeAt (listing file) k r.lines k' := by
  have hmem : .jal r.label ∈ file.main ++ file.runtime := by
    unfold listing at hr
    simp only [List.mem_append] at hr ⊢
    rcases hr with ((hentry | hmain) | hexit) | hruntime
    · simp [File.entry] at hentry
    · exact .inl hmain
    · simp [File.exit, syscall] at hexit
    · exact .inr hruntime
  obtain ⟨s, hs, hlabel⟩ := Lowering.exists_used_of_callee h hmem rfl
  have hsame : some r = some s := by
    rw [← Lowering.routine?_jal r, ← Lowering.routine?_jal s, hlabel]
  rw [Option.some.inj hsame]
  exact codeAt_routine h hs

theorem codeAt_program (h : Lowering.generate config program = .ok file) :
    ∃ c f n d k, StmtCode config.unrollLimit .empty .empty 0 .empty (.seq program.statements) c f n d ∧
      CodeAt (listing file) 0 File.entry 2 ∧ CodeAt (listing file) 2 c k ∧
      ∃ k', CodeAt (listing file) k (release f.bytes ++ File.exit) k' := by
  obtain ⟨c, f, n, d, hcode, hmain, -⟩ := Lowering.stmtCode_of_generate h
  have hentry : listing file = [] ++ File.entry ++ (file.main ++ File.exit ++ file.runtime) := by
    simp [listing]
  have hbody : listing file = File.entry ++ Line.shown config.comments c ++
      (release f.bytes ++ File.exit ++ file.runtime) := by
    simp [listing, hmain]
  have hend : listing file = (File.entry ++ Line.shown config.comments c) ++ (release f.bytes ++ File.exit) ++
      file.runtime := by
    simp [listing, hmain]
  refine ⟨c, f, n, d, (File.entry ++ Line.shown config.comments c).length, hcode, ?_, ?_,
    (File.entry ++ Line.shown config.comments c).length + (release f.bytes ++ File.exit).length, ?_⟩
  · rw [hentry]
    exact codeAt_of_append [] _
  · rw [hbody, List.length_append]
    exact codeAt_shown File.entry _ _
  · rw [hend]
    exact codeAt_of_append _ _

end Listing

def Loaded.process {L : Layout} {config : GeneratorConfig} {program : Program} {file : File} {m : Hart}
    (hm : Loaded L file m) (h : Lowering.generate config program = .ok file) : Process where
  layout := L
  lines := listing file
  start := m
  unique _ := labelCount_listing_le_one h
  target _ hl _ ht := target_listing h hl ht
  routine _ hr := routine_listing h hr
  fits := hm.fits
  apart := hm.apart

namespace Process

/--
Top-level statements run up to the first one that fails. None of them ends with a signal, since there is no target.
-/
theorem follows_runAll {p : Process} {settings : EvaluatorConfig} {fuel limit n n' : Nat} {f f' : Frame}
    {d d' : DataSection} {c : List Line} {kept : Nat → Word} {body : List Stmt} {k k' : Nat} {s : State}
    (habort : settings.abortOnError = true) (hwords : EachPart (fun s => s.onWords = true) body)
    (hcode : StmtCode limit .empty f n d (.seq body) c f' n' d') (hc : CodeAt p.lines k c k')
    (hs : p.At k (p.Holds f kept []) s) :
    ∀ errors s', Session.runAll settings fuel body s = (errors, s', true) →
      errors = [] ∧ p.At k' (p.Holds f' kept []) s' ∨
      (∃ span, errors = [⟨.divisionByZero, span⟩]) ∧ ∃ rest, newline ∉ rest ∧ p.Fails (printed s'.lines ++ rest) := by
  induction body generalizing f n d c k s with
  | nil =>
    cases hcode
    cases hc
    rintro _ _ ⟨⟩
    exact .inl ⟨rfl, hs⟩
  | cons stmt rest ih =>
    rw [eachPart_cons] at hwords
    cases hcode with
    | cons hstmt hrest =>
      obtain ⟨k₁, hc₁, hc₂⟩ := codeAt_append.mp hc
      have hfollows := follows_part (.of settings fuel) hstmt below_empty hc₁
        (eachPart_cons.mpr ⟨hwords.1, eachPart_nil⟩) s hs
      intro errors s' hrun
      unfold Session.runAll at hrun
      cases hexecute : execute (.of settings fuel) stmt s with
      | ok flow t =>
        rw [hexecute] at hfollows hrun
        obtain ⟨_, _, hleads, core, hg, h⟩ := hfollows
        cases hleads with
        | normal => exact ih hwords.2 hrest hc₂ ⟨core, hg, h.holds⟩ errors s' hrun
        | breaking ht | continuing ht => cases ht
      | error halt t =>
        rw [hexecute] at hfollows hrun
        cases halt with
        | outOfFuel => cases hrun
        | error e =>
          obtain ⟨hkind, hrest⟩ := hfollows
          simp only [habort, if_true] at hrun
          cases hrun
          refine .inr ⟨⟨e.span, ?_⟩, hrest⟩
          rw [← hkind]

theorem At.exits {p : Process} {f : Frame} {kept : Nat → Word} {k k' : Nat} {s : State}
    (h : p.At k (p.Holds f kept []) s) (hc : CodeAt p.lines k (release f.bytes ++ File.exit) k')
    (hnonneg : 0 ≤ f.bytes) : Stops p.layout p.lines p.start .done (printed s.lines) := by
  obtain ⟨core, hg, h⟩ := h
  obtain ⟨k₁, hrelease, hexit⟩ := codeAt_append.mp hc
  rw [← Int.sub_zero f.bytes] at hrelease
  have hreleased := hg.release hrelease h.sp hnonneg
  simp only [File.exit, syscall, codeAt_instruction] at hexit
  obtain ⟨hli, hecall, -⟩ := hexit
  have hloaded := Reaches.step hreleased (step_instruction hli rfl)
  refine ⟨_, hloaded, ?_, ?_⟩
  · have ha₇ : ((core.set .sp (stackTop p.base 0)).set .a7 (.ofInt 32 10)).get .a7 = 10 :=
      Core.get_set (by decide)
    simp only [Machine.step, hecall]
    rw [if_pos ⟨trivial, ha₇⟩]
  · exact h.output.trans (List.append_nil _)

end Process

theorem Loaded.starts {L : Layout} {config : GeneratorConfig} {program : Program} {file : File} {m : Hart}
    (settings : EvaluatorConfig) (hm : Loaded L file m) (h : Lowering.generate config program = .ok file)
    (hentry : CodeAt (listing file) 0 File.entry 2) :
    (hm.process h).At 2 ((hm.process h).Holds .empty (fun _ => 0) []) (Session.start settings).state := by
  have hpc : m.pc = 0 := by
    have hmain : target? (listing file) (.named "main") = some 0 :=
      target?_eq (codeAt_label.mp hentry).1 (labelCount_listing_le_one h)
    exact Option.some.inj (hm.entry.symm.trans hmain)
  have hstart : (hm.process h).Gets 0 m.core := by
    rw [← hpc]
    exact Reaches.refl m
  have hbound : Bound (fun _ => True) (Named fun _ => 0) (fun _ => (0 : Word) = 0) .empty
      (Session.start settings).state.env := Bound.start
  have hstands : Stands L (m.core.get .sp) .empty (fun _ => 0) [] (Session.start settings).state m.core :=
    ⟨⟨fun _ => 0, fun n hn => absurd hn (Nat.not_lt_zero n), hbound⟩, by decide, hm.strings, hm.output⟩
  refine ⟨m.core.set .hp (L.data (.named "heap")), hstart.straight hentry rfl, hstands.set, ?_⟩
  rw [Core.get_set_of_ne (by decide)]
  exact (BitVec.sub_zero _).symm

/--
What a program on words prints and how it ends is the same for the evaluator and for the machine that runs its assembly:
if the evaluator finishes without errors the machine exits with all lines printed, and the only error is a division by
zero, for which the machine exits with status 1. The machine then has also printed the values before the division on
its line, and the message.
-/
theorem stops_of_generate {L : Layout} {config : GeneratorConfig} {settings : EvaluatorConfig} {program : Program}
    {file : File} {m : Hart} {fuel : Nat} (haccepted : Lowering.generate config program = .ok file)
    (hwords : ∀ s ∈ Stmt.partsOfAll program.statements, s.onWords = true) (hloaded : Loaded L file m)
    (habort : settings.abortOnError = true)
    (hfinished : ((Session.start settings).run fuel program).finished = true) :
    let report := (Session.start settings).run fuel program
    let lines := printed report.session.state.lines
    report.diagnostics = [] ∧ Stops L (listing file) m .done lines ∨
    (∃ span, report.diagnostics = [EvalError.diagnostic ⟨.divisionByZero, span⟩]) ∧
      ∃ rest, newline ∉ rest ∧
        Stops L (listing file) m (.exited 1) (lines ++ rest ++ bytes "error: division by zero\n") := by
  intro report lines
  obtain ⟨c, f, n, d, k, hcode, hentry, hc, k', hend⟩ := codeAt_program haccepted
  have hstart := hloaded.starts settings haccepted hentry
  obtain ⟨errors, hrun, hdiagnostics⟩ : ∃ errors, Session.runAll settings fuel program.statements
      (Session.start settings).state = (errors, report.session.state, true) ∧
      report.diagnostics = errors.map EvalError.diagnostic :=
    ⟨_, Prod.ext rfl (Prod.ext rfl hfinished), rfl⟩
  have hmessage : content .divisionByZero = "error: division by zero\n" := by decide +kernel
  rcases Process.follows_runAll habort hwords hcode hc hstart errors _ hrun with
    ⟨rfl, hdone⟩ | ⟨⟨span, rfl⟩, rest, hrest, core, m', hg, hstep, houtput⟩
  · exact .inl ⟨hdiagnostics, hdone.exits hend hcode.bytes_le⟩
  · refine .inr ⟨⟨span, hdiagnostics⟩, rest, hrest, _, hg, hstep, ?_⟩
    rw [houtput, hmessage]

def countingProgram : Program where
  statements := [
    .varDecl .unplaced .int "n" (some (.literal .unplaced (.int 2))),
    .whileLoop .unplaced (.binary .unplaced .gt (.var .unplaced "n") (.literal .unplaced (.int 0)))
      (.block .unplaced [
        .print .unplaced [.var .unplaced "n"],
        .expr .unplaced (.step .unplaced "n" .down)]),
    .print .unplaced [.literal .unplaced (.bool true),
      .binary .unplaced .div (.literal .unplaced (.int 1)) (.var .unplaced "n")]]

theorem stops_countingProgram :
    ∃ file rest, Lowering.generate ⟨false, 16⟩ countingProgram = .ok file ∧ newline ∉ rest ∧
      Stops (.usual (listing file)) (listing file) usualStart (.exited 1)
        (bytes "2\n1\n" ++ rest ++ bytes "error: division by zero\n") := by
  have hfile : (Lowering.generate ⟨false, 16⟩ countingProgram).toOption.any (fun file =>
      decide ((listing file).length < 2 ^ 30) && allStates (.usual (listing file)) (listing file)
        (fun m => decide (0x20000000 ≤ m.core.get .sp ∧ m.core.get .sp ≤ 0x7fffeffc)) 200 usualStart) = true := by
    decide +kernel
  have hwords : ∀ s ∈ Stmt.partsOfAll countingProgram.statements, s.onWords = true := by decide +kernel
  have hfinished : ((Session.start ⟨true, 0, 0⟩).run 9 countingProgram).finished = true := by decide +kernel
  have hreport : ((Session.start ⟨true, 0, 0⟩).run 9 countingProgram).diagnostics.length = 1 := by decide +kernel
  have hlines : printed ((Session.start ⟨true, 0, 0⟩).run 9 countingProgram).session.state.lines =
      bytes "2\n1\n" := by
    decide +kernel
  cases haccepted : Lowering.generate ⟨false, 16⟩ countingProgram with
  | error e =>
    rw [haccepted] at hfile
    cases hfile
  | ok file =>
    rw [haccepted] at hfile
    obtain ⟨hlength, hstack⟩ := Bool.and_eq_true_iff.mp hfile
    have hloaded := loaded_usual (of_decide_eq_true hlength) hstack
    rcases stops_of_generate haccepted hwords hloaded rfl hfinished with ⟨hnone, -⟩ | ⟨-, rest, hrest, hstops⟩
    · rw [hnone] at hreport
      cases hreport
    · rw [hlines] at hstops
      exact ⟨file, rest, rfl, hrest, hstops⟩

end Arbor.Machine
