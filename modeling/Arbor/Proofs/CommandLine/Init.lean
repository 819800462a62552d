import Arbor.CommandLine.Init
import Arbor.Proofs.CommandLine.Files
import Arbor.Proofs.Toml.Documents
import Arbor.Proofs.Toml.Lines
import Arbor.Proofs.Toml.Strings

/-!
This module contains when the manifest of a new project can be read as what it was written for: exactly if no character
of the name is a quote, a backslash or a control character. The name is put between quotes as it is.
-/

namespace Arbor

open Toml

/-! The document of a manifest -/

namespace CommandLine.InitCommand

def settings : List Char :=
  '\n' :: '[' :: ("generator".toList ++ ']' :: '\n' ::
    ("comments".toList ++ ' ' :: '=' :: ' ' :: ("true".toList ++ '\n' ::
    ("unroll_limit".toList ++ ' ' :: '=' :: ' ' :: (Nat.toDigits 10 16 ++ '\n' ::
    '\n' :: '[' :: ("evaluator".toList ++ ']' :: '\n' ::
    ("abort_on_error".toList ++ ' ' :: '=' :: ' ' :: ("false".toList ++ '\n' ::
    ("max_call_depth".toList ++ ' ' :: '=' :: ' ' :: (Nat.toDigits 10 256 ++ '\n' ::
    ("max_array_length".toList ++ ' ' :: '=' :: ' ' :: (Nat.toDigits 10 16777216 ++ '\n' :: []))))))))))))

theorem toList_manifestText (name : String) : (manifestText name).toList =
    '[' :: ("project".toList ++ ']' :: '\n' :: ("name".toList ++ ' ' :: '=' :: ' ' ::
      '"' :: (name.toList ++ '"' :: '\n' :: settings))) := by
  have hstart : "[project]\nname = \"".toList =
      '[' :: ("project".toList ++ ']' :: '\n' :: ("name".toList ++ [' ', '=', ' ', '"'])) := by
    decide +kernel
  have hend : "\"\n\n[generator]\ncomments = true\nunroll_limit = 16\n\n".toList ++
      "[evaluator]\nabort_on_error = false\nmax_call_depth = 256\nmax_array_length = 16777216\n".toList =
      '"' :: '\n' :: settings := by
    decide +kernel
  have happend (a b c d : String) :
      (a ++ b ++ c ++ d).toList = a.toList ++ (b.toList ++ (c.toList ++ d.toList)) := by
    simp
  refine (happend _ _ _ _).trans ?_
  rw [hstart, hend]
  simp

def documentOf (sections : List (String × List (String × Toml.Value))) (current : String) : Document :=
  ⟨⟨.header, sections.map fun (name, fields) => (name, .table .header fields)⟩, [current]⟩

def newDocument (name : String) : Document :=
  documentOf [("project", [("name", .string name)]),
    ("generator", [("comments", .bool true), ("unroll_limit", .integer 16)]),
    ("evaluator", [("abort_on_error", .bool false), ("max_call_depth", .integer 256),
      ("max_array_length", .integer 16777216)])] "evaluator"

theorem lines?_settings (s : String) (fuel : Nat) :
    Document.lines? (fuel + 9) (documentOf [("project", [("name", .string s)])] "project") settings =
      some (newDocument s) := by
  unfold settings
  rw [lines?_blank, lines?_header (by decide) rfl, lines?_field (by decide) rfl rfl,
    lines?_field (by decide) (value?_blank_toDigits (by decide) _) rfl, lines?_blank,
    lines?_header (by decide) rfl, lines?_field (by decide) rfl rfl,
    lines?_field (by decide) (value?_blank_toDigits (by decide) _) rfl,
    lines?_field (by decide) (value?_blank_toDigits (by decide) _) rfl, Document.lines?]
  rfl

/-! The name -/

variable {name s : String} {cs rest : List Char} {fuel : Nat}

theorem value?_string (cs : List Char) :
    value? depthLimit (skipBlanks (' ' :: '"' :: cs)) = (string? ('"' :: cs)).map fun (s, rest) => (.string s, rest) :=
  rfl

theorem read?_manifestText (name : String) : ∃ fuel,
    Toml.read? (manifestText name) =
      (Document.lines? (fuel + 10) (documentOf [("project", [])] "project") ("name".toList ++ ' ' :: '=' :: ' ' ::
        '"' :: (name.toList ++ '"' :: '\n' :: settings))).map Document.root := by
  have hlength : 11 ≤ (manifestText name).toList.length := by
    rw [toList_manifestText]
    simp
  obtain ⟨fuel, hfuel⟩ := Nat.exists_eq_add_of_le' hlength
  refine ⟨fuel, ?_⟩
  have hread : Toml.read? (manifestText name) =
      (Document.lines? (fuel + 11) .empty (manifestText name).toList).map Document.root := by
    rw [← hfuel, Toml.read?, toList_manifestText]
    rfl
  rw [hread, toList_manifestText, lines?_header (by decide) rfl]
  rfl

theorem read?_manifestText_of_plain (h : name.toList.all isPlain = true) :
    Toml.read? (manifestText name) = some (newDocument name).root := by
  obtain ⟨fuel, hread⟩ := read?_manifestText name
  have hvalue : value? depthLimit (skipBlanks (' ' :: '"' :: (name.toList ++ '"' :: '\n' :: settings))) =
      some (.string name, '\n' :: settings) := by
    rw [value?_string, string?_plain h (by simp), String.ofList_toList]
    rfl
  have hname : Document.lines? (fuel + 10) (documentOf [("project", [])] "project") ("name".toList ++ ' ' :: '=' ::
      ' ' :: '"' :: (name.toList ++ '"' :: '\n' :: settings)) = some (newDocument name) :=
    (lines?_field (by decide) hvalue rfl (fuel + 9)).trans (lines?_settings name fuel)
  rw [hread, hname]
  rfl

theorem exists_string_of_read? {t : Table} (h : Toml.read? (manifestText name) = some t) :
    ∃ s rest, string? ('"' :: (name.toList ++ '"' :: '\n' :: settings)) = some (s, rest) ∧
      t.toValue.stringAt? ["project", "name"] = some s := by
  obtain ⟨fuel, hread⟩ := read?_manifestText name
  rw [hread] at h
  obtain ⟨d, hlines, rfl⟩ := Option.map_eq_some_iff.mp h
  rw [lines?_fieldOf _ (by decide)] at hlines
  obtain ⟨⟨v, later⟩, hvalue, hlines⟩ := Option.bind_eq_some_iff.mp hlines
  rw [value?_string] at hvalue
  obtain ⟨⟨s, later⟩, hstring, heq⟩ := Option.map_eq_some_iff.mp hvalue
  cases heq
  obtain ⟨rest, -, hlines⟩ := Option.bind_eq_some_iff.mp hlines
  obtain ⟨named, hnamed, hlines⟩ := Option.bind_eq_some_iff.mp hlines
  cases hnamed
  exact ⟨s, later, hstring, Document.keeps_lines? _ _ _ hlines ["project", "name"] s rfl⟩

end CommandLine.InitCommand

theorem Manifest.name_of_ofTable? {t : Table} {m : Manifest} {s : String} (h : Manifest.ofTable? t = some m)
    (hs : t.toValue.stringAt? ["project", "name"] = some s) : m.name = some s := by
  rw [Table.stringAt?_cons] at hs
  obtain ⟨project, hproject, hs⟩ := Option.bind_eq_some_iff.mp hs
  unfold Manifest.ofTable? at h
  rw [hproject] at h
  obtain ⟨name, hname, h⟩ := Option.bind_eq_some_iff.mp h
  obtain ⟨generator, -, h⟩ := Option.bind_eq_some_iff.mp h
  obtain ⟨evaluator, -, h⟩ := Option.bind_eq_some_iff.mp h
  cases h
  cases project with
  | table origin fields =>
    obtain ⟨v, hv, hs⟩ := Option.bind_eq_some_iff.mp hs
    have hname : Manifest.setting? none Manifest.text? (fields.lookup "name") = some name := hname
    rw [hv] at hname
    cases v with
    | string =>
      cases hs
      cases hname
      rfl
    | _ => cases hs
  | _ => cases hs

namespace CommandLine

namespace InitCommand

variable {name : String} {m : Manifest}

theorem read_manifestText (h : name.toList.all isPlain = true) :
    Manifest.read (manifestText name) = .ok ⟨some name, .default, .default⟩ := by
  rw [Manifest.read, read?_manifestText_of_plain h]
  rfl

/--
A name that is not plain is not what the manifest is read with, if it is read at all.
-/
theorem plain_of_read_manifestText (h : Manifest.read (manifestText name) = .ok m) (hname : m.name = some name) :
    name.toList.all isPlain = true := by
  unfold Manifest.read at h
  split at h
  · cases h
  · next m' hm' =>
    obtain ⟨t, ht, hm'⟩ := Option.bind_eq_some_iff.mp hm'
    have hm : m' = m := by
      unfold Manifest.check at h
      split at h
      · cases h
      · split at h
        · cases h
        · split at h
          · cases h
          · exact Except.ok.inj h
    subst hm
    obtain ⟨s, rest, hstring, hs⟩ := exists_string_of_read? ht
    have hsame : s = name := by
      rw [Manifest.name_of_ofTable? hm' hs] at hname
      exact Option.some.inj hname
    subst hsame
    have hquotes : '"' ∉ '\n' :: settings := by decide +kernel
    exact plain_of_string? hstring hquotes String.length_toList.le

/-! Commands -/

def directory (c : InitCommand) (s : Memory) : String :=
  if c.isHere then "/" ++ Path.ofComponents s.current else c.name

def projectName (c : InitCommand) (s : Memory) : String :=
  if c.isHere then Path.baseName (c.directory s) else c.name

variable {c : InitCommand} {s s' : Memory}

theorem run_bind {α β : Type} {x : ExceptT String (StateM Memory) α} {f : α → ExceptT String (StateM Memory) β} {b : β}
    (h : (x >>= f).run.run s = (.ok b, s')) : ∃ a s₁, x.run.run s = (.ok a, s₁) ∧ (f a).run.run s₁ = (.ok b, s') := by
  rw [ExceptT.run_bind, StateT.run_bind] at h
  obtain ⟨result, s₁, hx⟩ : ∃ result s₁, x.run.run s = (result, s₁) := ⟨_, _, rfl⟩
  rw [hx] at h
  cases result with
  | ok a => exact ⟨a, s₁, hx, h⟩
  | error e => cases h

theorem run_lift {α : Type} {x : StateM Memory α} {a : α}
    (h : (liftM x : ExceptT String (StateM Memory) α).run.run s = (.ok a, s')) : x.run s = (a, s') := by
  cases h
  rfl

theorem run_throw {α : Type} {message : String} {a : α} :
    (throw message : ExceptT String (StateM Memory) α).run.run s ≠ (.ok a, s') := by
  rintro ⟨⟩

theorem run_change (f : FileTree → List String → Except FileError FileTree) (s : Memory) :
    (Memory.change f).run s = match f s.tree s.current with
      | .ok t => (.ok (), { s with tree := t })
      | .error e => (.error e, s) := by
  unfold Memory.change
  rw [StateT.run_bind, StateT.run_get, pure_bind]
  cases f s.tree s.current <;> rfl

theorem write_of_ok {path content : String} (h : (write Memory.host path content).run.run s = (.ok (), s')) :
    ∃ t, s.tree.write s.current path content = .ok t ∧ s' = { s with tree := t } := by
  unfold write at h
  obtain ⟨result, s₁, hresult, h⟩ := run_bind h
  have hresult := run_lift hresult
  cases result with
  | error e => exact absurd h run_throw
  | ok u =>
    cases h
    change (Memory.change fun t current => t.write current path content).run s = (.ok u, s') at hresult
    rw [run_change] at hresult
    split at hresult
    · next t ht =>
      cases hresult
      exact ⟨t, ht, rfl⟩
    · cases hresult

theorem exists_writes_of_create {directory projectName : String}
    (h : (create Memory.host c directory projectName).run.run s = (.ok (), s')) :
    ∃ t t' : FileTree,
      t.write s'.current (Path.join directory manifestFile) (manifestText projectName) = .ok t' ∧
        t'.write s'.current (Path.join directory ".gitignore") ignoreText = .ok s'.tree := by
  -- Whatever comes before them, the two files are written last.
  have hwrites : ∀ s₀ : Memory,
      (do
        write Memory.host (Path.join directory manifestFile) (manifestText projectName)
        write Memory.host (Path.join directory ".gitignore") ignoreText).run.run s₀ = (.ok (), s') →
      ∃ t t' : FileTree,
        t.write s'.current (Path.join directory manifestFile) (manifestText projectName) = .ok t' ∧
          t'.write s'.current (Path.join directory ".gitignore") ignoreText = .ok s'.tree := by
    intro s₀ h
    obtain ⟨_, s₁, h₁, h⟩ := run_bind h
    obtain ⟨t', ht', rfl⟩ := write_of_ok h₁
    obtain ⟨t'', ht'', rfl⟩ := write_of_ok h
    exact ⟨s₀.tree, t', ht', ht''⟩
  unfold create at h
  obtain ⟨found, s₁, -, h⟩ := run_bind h
  dsimp only at h
  split at h
  · obtain ⟨_, _, hthrow, _⟩ := run_bind h
    exact absurd hthrow run_throw
  · split at h
    · obtain ⟨result, s₂, -, h⟩ := run_bind h
      split at h
      · exact hwrites _ h
      · obtain ⟨_, _, hthrow, _⟩ := run_bind h
        exact absurd hthrow run_throw
    · exact hwrites _ h

theorem run_print (lines : List String) (s : Memory) :
    ∃ output, (lines.forM Memory.host.printLine).run s = ((), { s with output }) := by
  induction lines generalizing s with
  | nil => exact ⟨s.output, rfl⟩
  | cons line rest ih =>
    obtain ⟨output, houtput⟩ := ih { s with output := s.output ++ (line ++ "\n") }
    exact ⟨output, houtput⟩

def report (c : InitCommand) (projectName : String) : Except String Unit → StateM Memory ExitStatus
  | .error message => Memory.host.fail message
  | .ok _ => do
    (greeting c projectName).forM Memory.host.printLine
    return .success

theorem run_eq (c : InitCommand) (s : Memory) :
    (c.run Memory.host).run s =
      ((create Memory.host c (c.directory s) (c.projectName s)).run >>= report c (c.projectName s)).run s := by
  unfold run projectName directory
  split <;> rfl

theorem create_of_run (h : (c.run Memory.host).run s = (.success, s')) :
    ∃ s₁, (create Memory.host c (c.directory s) (c.projectName s)).run.run s = (.ok (), s₁) ∧
      s₁.current = s'.current ∧ s₁.tree = s'.tree := by
  rw [run_eq, StateT.run_bind] at h
  obtain ⟨result, s₁, hcreate⟩ : ∃ result s₁,
    (create Memory.host c (c.directory s) (c.projectName s)).run.run s = (result, s₁) := ⟨_, _, rfl⟩
  rw [hcreate] at h
  cases result with
  | error message => cases h
  | ok u =>
    obtain ⟨output, houtput⟩ := run_print (greeting c (c.projectName s)) s₁
    change ((greeting c (c.projectName s)).forM Memory.host.printLine >>= fun _ => pure ExitStatus.success).run s₁ = _
      at h
    rw [StateT.run_bind, houtput] at h
    cases h
    exact ⟨s₁, hcreate, rfl, rfl⟩

/--
A project that is created has a manifest with the text for its name. The manifest is read as this name and the default
settings if the name is plain, and otherwise it is not read as the name.
-/
theorem manifest_of_run (h : (c.run Memory.host).run s = (.success, s')) :
    s'.tree.read s'.current (Path.join (c.directory s) manifestFile) = .ok (manifestText (c.projectName s)) ∧
      ((c.projectName s).toList.all isPlain = true →
        Manifest.read (manifestText (c.projectName s)) = .ok ⟨some (c.projectName s), .default, .default⟩) ∧
      ((c.projectName s).toList.all isPlain = false →
        ∀ m, Manifest.read (manifestText (c.projectName s)) = .ok m → m.name ≠ some (c.projectName s)) := by
  obtain ⟨s₁, hcreate, hcurrent, htree⟩ := create_of_run h
  obtain ⟨t, t', ht, ht'⟩ := exists_writes_of_create hcreate
  rw [← hcurrent, ← htree]
  refine ⟨FileTree.read_of_writes ⟨by decide, by decide, by decide, by decide⟩
    ⟨by decide, by decide, by decide, by decide⟩ (by decide) ht ht', read_manifestText, ?_⟩
  intro hplain m hm hname
  rw [plain_of_read_manifestText hm hname] at hplain
  cases hplain

def bare : Memory :=
  ⟨⟨[], []⟩, [], "", ""⟩

theorem manifest_of_run_demo : ∃ s', ((⟨"demo"⟩ : InitCommand).run Memory.host).run bare = (.success, s') ∧
    s'.tree.read [] "demo/Oak.toml" = .ok (manifestText "demo") ∧
      Manifest.read (manifestText "demo") = .ok ⟨some "demo", .default, .default⟩ := by
  have hrun : ((⟨"demo"⟩ : InitCommand).run Memory.host).run bare = (.success, _) := rfl
  obtain ⟨hwritten, hplain, -⟩ := manifest_of_run hrun
  exact ⟨_, hrun, hwritten, hplain (by decide +kernel)⟩

/--
A project whose name has a quote is created with a manifest that cannot be read.
-/
theorem unreadable_quoted : ∃ s', ((⟨"we\"ird"⟩ : InitCommand).run Memory.host).run bare = (.success, s') ∧
    s'.tree.read [] "we\"ird/Oak.toml" = .ok (manifestText "we\"ird") ∧
      Manifest.read (manifestText "we\"ird") = .error .invalid := by
  refine ⟨_, rfl, ?_, ?_⟩
  · rfl
  · decide +kernel

end InitCommand

end CommandLine

end Arbor
