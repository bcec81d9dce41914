import TemplateCheck.Console
import TemplateCheck.Proofs.Text.Decode

/-!
# Checking several files

A check goes through all its files, and what it writes of one does not depend on the others.

* `Accepted files path`        the path leads to the bytes of a well-formed template
* `Silent ms`                  none of the messages is output
* `parseFile_of_accepted`      a parse that goes well writes to the log only
* `parseFile_of_not_accepted`  one that fails has something to say, and outputs nothing
* `checkFile_result_iff`       a check goes well exactly if the file is accepted
* `listKeys_result_iff`        and so does a listing of keys
* `stderr_checkFiles`          what a check of several files writes, file by file
* `check_each`                 the answers to the argument lists of checks and listings
-/

namespace TemplateCheck.Command
open Template (Kind)

/-- The path leads to the bytes of a well-formed template. -/
def Accepted (files : String → File) (path : String) : Prop :=
  ∃ source tokens, files path = .bytes (Utf8.encode source) ∧ Template.parse source = .ok tokens

/-- None of the messages is output. -/
def Silent (ms : List Message) : Prop :=
  ∀ m ∈ ms, m.toStdout = ""

theorem silent_append {ms ns : List Message} : Silent (ms ++ ns) ↔ Silent ms ∧ Silent ns :=
  List.forall_mem_append

theorem silent_log (records : List Log.Record) : Silent (records.map Message.log) :=
  List.forall_mem_map.mpr fun _ _ => rfl

theorem silent_failureNotice (path : String) (errors : List (ParseError Kind)) :
    Silent (failureNotice path errors) := by
  simp [Silent, failureNotice, record, Message.toStdout]

/-- Work on a file ends with a record and a notice. -/
theorem notice_mem_append (ms : List Message) (m : Message) (line : String) :
    .notice line ∈ ms ++ [m, .notice line] :=
  List.mem_append_right ms (List.mem_cons_of_mem m (List.mem_singleton_self _))

/-! ## one file -/

theorem File.text_eq_ok_iff {f : File} {source : String} :
    f.text = .ok source ↔ f = .bytes (Utf8.encode source) := by
  cases f with
  | missing => simp [File.text]
  | directory => simp [File.text]
  | bytes content =>
    rw [File.bytes.injEq, ← Utf8.decode?_eq_some_iff]
    cases h : Utf8.decode? content <;> simp [File.text, h]

/-- parsing a text, by what the parser says of it -/
theorem parseSource_eq (path source : String) :
    ∃ log : List Log.Record, parseSource path source =
      match Template.parse source with
      | .ok tokens => ⟨log.map Message.log, some tokens⟩
      | .error errors => ⟨log.map Message.log ++ failureNotice path errors, none⟩ :=
  ⟨((Template.final source).report Template.grammar).log, rfl⟩

section
variable {files : String → File} {path : String}

theorem parseFile_of_accepted (h : Accepted files path) :
    ∃ (log : List Log.Record) (tokens : List (Token Kind)),
      parseFile files path = ⟨log.map Message.log, some tokens⟩ := by
  obtain ⟨source, tokens, hfile, hparse⟩ := h
  obtain ⟨log, hlog⟩ := parseSource_eq path source
  rw [hparse] at hlog
  refine ⟨log, tokens, ?_⟩
  rw [parseFile, readTemplate, File.text_eq_ok_iff.mpr hfile]
  simp only [hlog, List.nil_append]

theorem parseFile_of_not_accepted (h : ¬ Accepted files path) :
    ∃ ms line, parseFile files path = ⟨ms, none⟩ ∧ Silent ms ∧ .notice line ∈ ms := by
  cases htext : (files path).text with
  | error e =>
    refine ⟨[.notice (e.message path)], e.message path, ?_, ?_, List.mem_singleton_self _⟩
    · rw [parseFile, readTemplate, htext]
    · exact List.forall_mem_singleton.mpr rfl
  | ok source =>
    have hfile := File.text_eq_ok_iff.mp htext
    obtain ⟨log, hlog⟩ := parseSource_eq path source
    cases hparse : Template.parse source with
    | ok tokens => exact absurd ⟨source, tokens, hfile, hparse⟩ h
    | error errors =>
      rw [hparse] at hlog
      refine ⟨log.map Message.log ++ failureNotice path errors, _, ?_, ?_,
        notice_mem_append _ _ _⟩
      · rw [parseFile, readTemplate, htext]
        simp only [hlog, List.nil_append]
      · exact silent_append.mpr ⟨silent_log log, silent_failureNotice path errors⟩

/-- **A check goes well exactly if the file is accepted.** -/
theorem checkFile_result_iff : (checkFile files path).result ↔ Accepted files path := by
  by_cases h : Accepted files path
  · obtain ⟨log, tokens, hparse⟩ := parseFile_of_accepted h
    simp [checkFile, hparse, h]
  · obtain ⟨ms, line, hparse, -⟩ := parseFile_of_not_accepted h
    simp [checkFile, hparse, h]

/-- **A listing of keys goes well exactly if the file is accepted.** -/
theorem listKeys_result_iff : (listKeys files path).result ↔ Accepted files path := by
  by_cases h : Accepted files path
  · obtain ⟨log, tokens, hparse⟩ := parseFile_of_accepted h
    simp [listKeys, hparse, h]
  · obtain ⟨ms, line, hparse, -⟩ := parseFile_of_not_accepted h
    simp [listKeys, hparse, h]

/-- A check outputs nothing and always has something to say. -/
theorem messages_checkFile (files : String → File) (path : String) :
    Silent (checkFile files path).messages ∧
      ∃ line, .notice line ∈ (checkFile files path).messages := by
  by_cases h : Accepted files path
  · obtain ⟨log, tokens, hparse⟩ := parseFile_of_accepted h
    simp only [checkFile, hparse]
    refine ⟨silent_append.mpr ⟨silent_log log, ?_⟩, _, notice_mem_append _ _ _⟩
    simp [Silent, record, Message.toStdout]
  · obtain ⟨ms, line, hparse, hsilent, hline⟩ := parseFile_of_not_accepted h
    simp only [checkFile, hparse]
    exact ⟨hsilent, line, hline⟩

theorem silent_listKeys (h : ¬ Accepted files path) : Silent (listKeys files path).messages := by
  obtain ⟨ms, line, hparse, hsilent, -⟩ := parseFile_of_not_accepted h
  simp only [listKeys, hparse]
  exact hsilent

end

/-! ## several files -/

theorem checkFiles_result_iff {files : String → File} {paths : List String} :
    (checkFiles files paths).result ↔ ∀ path ∈ paths, Accepted files path := by
  rw [checkFiles, List.all_map, List.all_eq_true]
  exact forall₂_congr fun path _ => checkFile_result_iff

theorem silent_checkFiles (files : String → File) (paths : List String) :
    Silent (checkFiles files paths).messages := by
  intro m hm
  rw [checkFiles, List.flatMap_map, List.mem_flatMap] at hm
  obtain ⟨path, -, hm⟩ := hm
  exact (messages_checkFile files path).1 m hm

theorem checkFiles_singleton (files : String → File) (path : String) :
    checkFiles files [path] = checkFile files path := by
  simp [checkFiles]

theorem checkFiles_cons_messages (files : String → File) (path : String) (paths : List String) :
    (checkFiles files (path :: paths)).messages =
      (checkFile files path).messages ++ (checkFiles files paths).messages := rfl

/-! ## what is written -/

theorem join_eq_empty_iff {ss : List String} : String.join ss = "" ↔ ∀ s ∈ ss, s = "" := by
  induction ss with
  | nil => simp [String.join_nil]
  | cons s ss ih => rw [String.join_cons, String.append_eq_empty_iff, ih, List.forall_mem_cons]

theorem stdout_of_silent {w : Work Bool} (h : Silent w.messages) (logger : Log.Logger) :
    (w.outcome logger).stdout = "" :=
  join_eq_empty_iff.mpr (List.forall_mem_map.mpr h)

/-- a notice is written whatever becomes of the log -/
theorem stderr_ne_empty {w : Work Bool} {line : String} (h : .notice line ∈ w.messages)
    (logger : Log.Logger) : (w.outcome logger).stderr ≠ "" := by
  intro hempty
  have hline := join_eq_empty_iff.mp hempty _ (List.mem_map_of_mem h)
  simp [Message.toStderr] at hline

/-- **The error output of a check** is that of the checks of its files, one after the other. -/
theorem stderr_checkFiles (files : String → File) (logger : Log.Logger) (paths : List String) :
    ((checkFiles files paths).outcome logger).stderr =
      String.join (paths.map fun path => ((checkFile files path).outcome logger).stderr) := by
  induction paths with
  | nil => rfl
  | cons path paths ih =>
    show String.join ((checkFiles files (path :: paths)).messages.map (Message.toStderr logger)) = _
    rw [List.map_cons, String.join_cons, ← ih, checkFiles_cons_messages, List.map_append,
      String.join_append]
    rfl

theorem code_eq_zero_iff (w : Work Bool) (logger : Log.Logger) :
    (w.outcome logger).code = 0 ↔ w.result := by
  cases h : w.result <;> simp [Work.outcome, h]

theorem code_eq_one_iff (w : Work Bool) (logger : Log.Logger) :
    (w.outcome logger).code = 1 ↔ ¬ w.result := by
  cases h : w.result <;> simp [Work.outcome, h]

section
variable {host : Host} {args : List String}

theorem respond_of_read {r : Request} (h : host.read args = .ok r) (files : String → File) :
    respond host files args = (r.job.run files).outcome (host.logger (levelOf r.verbosity)) := by
  rw [respond, h]

/-- **Every file is checked, and on its own.**  Whatever reads the arguments and writes the log: what
a check writes is what the checks of its files write by themselves; it goes well if every file is
accepted; and the keys of a file are listed if its check goes well. -/
theorem check_each {files : String → File} {verbosity : Nat} {paths : List String}
    (hargs : host.read args = .ok ⟨verbosity, .check paths⟩)
    {alone : String → List String}
    (halone : ∀ path, host.read (alone path) = .ok ⟨verbosity, .check [path]⟩)
    {keys : String → List String}
    (hkeys : ∀ path, ∃ v, host.read (keys path) = .ok ⟨v, .keys path⟩) :
    let run := respond host files
    (run args).stderr = String.join (paths.map fun path => (run (alone path)).stderr) ∧
      (∀ path, (run (alone path)).stderr ≠ "") ∧
      (run args).stdout = "" ∧
      ((run args).code = 0 ↔ ∀ path ∈ paths, Accepted files path) ∧
      ((run args).code = 1 ↔ ¬ ∀ path ∈ paths, Accepted files path) ∧
      ∀ path, ((run (keys path)).code = 0 ↔ (run (alone path)).code = 0) ∧
        ((run (keys path)).code ≠ 0 → (run (keys path)).stdout = "") := by
  intro run
  have hrun : run args = (checkFiles files paths).outcome (host.logger (levelOf verbosity)) :=
    respond_of_read hargs files
  have hone (path : String) :
      run (alone path) = (checkFile files path).outcome (host.logger (levelOf verbosity)) := by
    rw [← checkFiles_singleton]
    exact respond_of_read (halone path) files
  refine ⟨?_, ?_, ?_, ?_, ?_, ?_⟩
  · simp only [hrun, hone, stderr_checkFiles]
  · intro path
    obtain ⟨-, line, hline⟩ := messages_checkFile files path
    rw [hone]
    exact stderr_ne_empty hline _
  · rw [hrun]
    exact stdout_of_silent (silent_checkFiles files paths) _
  · rw [hrun, code_eq_zero_iff, checkFiles_result_iff]
  · rw [hrun, code_eq_one_iff, checkFiles_result_iff]
  · intro path
    obtain ⟨v, hv⟩ := hkeys path
    have hlist : run (keys path) = (listKeys files path).outcome (host.logger (levelOf v)) :=
      respond_of_read hv files
    rw [hlist, hone, code_eq_zero_iff, code_eq_zero_iff, listKeys_result_iff, checkFile_result_iff]
    refine ⟨Iff.rfl, ?_⟩
    intro hcode
    rw [Ne, code_eq_zero_iff, listKeys_result_iff] at hcode
    exact stdout_of_silent (silent_listKeys hcode) _

/-- On a console: one of two files is missing, so the check fails, and it writes of both. -/
theorem check_each_missing :
    let files : String → File := fun path =>
      if path = "page" then .bytes (Utf8.encode "x") else .missing
    let run := respond (Console.host none (some "2024-01-01T00:00:00Z")) files
    (run ["-v", "check", "page", "gone"]).code = 1 ∧
      (run ["-v", "check", "page", "gone"]).stderr =
        (run ["check", "-v", "--", "page"]).stderr ++ (run ["check", "-v", "--", "gone"]).stderr := by
  intro files run
  let console := Console.host none (some "2024-01-01T00:00:00Z")
  have hargs : console.read ["-v", "check", "page", "gone"] =
      .ok ⟨1, .check ["page", "gone"]⟩ := rfl
  have halone (path : String) : console.read ["check", "-v", "--", path] =
      .ok ⟨1, .check [path]⟩ := rfl
  have hkeys (path : String) : ∃ v, console.read ["keys", "--", path] = .ok ⟨v, .keys path⟩ :=
    ⟨0, rfl⟩
  obtain ⟨hstderr, -, -, -, hcode, -⟩ := @check_each console _ files _ _ hargs _ halone _ hkeys
  have hgone : ¬ Accepted files "gone" := by
    rintro ⟨source, tokens, hfile, -⟩
    cases (rfl : files "gone" = .missing).symm.trans hfile
  refine ⟨hcode.mpr fun hall => hgone (hall "gone" (by simp)), hstderr.trans ?_⟩
  rw [List.map_cons, List.map_singleton, String.join_cons, String.join_cons, String.join_nil,
    String.append_empty]

end

end TemplateCheck.Command
