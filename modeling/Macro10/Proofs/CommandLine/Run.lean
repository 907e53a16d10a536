import Macro10.Proofs.CommandLine.Disk
import Macro10.Proofs.Encoding
import Macro10.Proofs.Source.Steps

/-!
# What a run does to the files

A run writes its output only when everything that can fail has been done (`convertFile_cases`). So a
run that fails leaves all files as they were, and one that succeeds changes one file, whose new
bytes spell the lines that include files and the converted document.
-/

namespace Macro10.CommandLine

open Text (decode encode ofString)
open Settings (resolve)

variable {settings : Settings} {verbosity : Verbosity} {a : Arguments}

/-! ## Preparing the output -/

theorem includeNames_eq_ok {place : Nat} {includes : List (Option Text)} {names : List Text}
    (h : includeNames place includes = .ok names) : includes = names.map some := by
  induction includes generalizing place names with
  | nil =>
    cases h
    rfl
  | cons first rest ih =>
    cases first with
    | none => cases h
    | some name =>
      rw [includeNames] at h
      cases hrest : includeNames (place + 1) rest with
      | error escape => rw [hrest] at h; cases h
      | ok others =>
        rw [hrest] at h
        cases h
        rw [ih hrest, List.map_cons]

theorem mapError_eq_ok {ε ε' α : Type} {x : Except ε α} {f : ε → ε'} {a : α} :
    x.mapError f = .ok a ↔ x = .ok a := by
  cases x <;> simp [Except.mapError]

/-- What is prepared is the converted document, below a line for each file to include. -/
theorem prepare_eq_ok {source : Text}
    {prepared : Prepared} (h : prepare verbosity settings source = .ok prepared) :
    ∃ reading d, ∃ names : List Text, ∃ text,
      Reading.ofSource source settings.radix = .ok reading ∧ reading.document.converted = .ok d ∧
      settings.includes = names.map some ∧ d.render = .ok text ∧
      prepared.output = names.flatMap (fun name =>
        ofString ".INCLUDE \"" ++ name ++ ofString "\"" ++ d.newline) ++ text := by
  obtain ⟨reading, hreading, h⟩ := bind_eq_ok.mp h
  obtain ⟨d, hd, h⟩ := bind_eq_ok.mp h
  obtain ⟨outline, -, h⟩ := bind_eq_ok.mp h
  obtain ⟨names, hnames, h⟩ := bind_eq_ok.mp h
  obtain ⟨output, houtput, h⟩ := bind_eq_ok.mp h
  obtain ⟨text, htext, hjoined⟩ := bind_eq_ok.mp (mapError_eq_ok.mp houtput)
  cases h
  cases hjoined
  exact ⟨reading, d, names, text, mapError_eq_ok.mp hreading, mapError_eq_ok.mp hd,
    includeNames_eq_ok (mapError_eq_ok.mp hnames), htext, rfl⟩

theorem resolve_input {input : Path} {table : Toml.Table}
    (h : resolve a input table = .ok settings) : settings.input = input := by
  obtain ⟨includes, -, h⟩ := bind_eq_ok.mp h
  obtain ⟨radix, -, h⟩ := bind_eq_ok.mp h
  obtain ⟨output, -, h⟩ := bind_eq_ok.mp h
  cases h
  rfl

/-- Settings come from a configuration that could be read; a run without them fails. -/
theorem settingsOf_cases (a : Arguments) (input : Path) (config : Except ConfigFault Toml.Table) :
    (∃ outcome, settingsOf a input config = .error outcome ∧ outcome.ending ≠ .returned 0) ∨
    (∃ settings table, settingsOf a input config = .ok settings ∧ config = .ok table ∧
      resolve a input table = .ok settings) := by
  cases config with
  | error fault => cases fault <;> exact .inl ⟨_, rfl, by simp⟩
  | ok table =>
    cases hresolve : resolve a input table with
    | ok settings =>
      exact .inr ⟨settings, table, by simp [settingsOf, hresolve], rfl, hresolve⟩
    | error fault =>
      cases fault <;> exact .inl ⟨_, by simp [settingsOf, hresolve]; rfl, by simp⟩

/-! ## Asking and reading -/

section

variable {outcome : Outcome}

variable {σ ι α β : Type} {disk : Disk (StateM σ)} {view : Disk.View σ ι}

theorem run_bind_eq {x : StateM σ α} {f : α → StateM σ β} {a : α} {s s' : σ}
    (h : x.run s = (a, s')) : (x >>= f).run s = (f a).run s' := by
  rw [StateT.run_bind, h]
  rfl

theorem run_hasFile (law : disk.Lawful view) (path : Path) (s : σ) :
    ∃ answer, (hasFile disk path).run s = (answer, s) ∧
      ∀ found, answer = .ok found → found = (!path.holdsZero && (view.bytes? s path).isSome) := by
  unfold hasFile
  split
  · rename_i hzero
    exact ⟨.ok false, rfl, fun found hfound => by cases hfound; simp [hzero]⟩
  · rename_i hzero
    refine ⟨_, Prod.ext rfl (law.isFile_state path s), fun found hfound => ?_⟩
    have hanswer := law.isFile_answer path s found (mapError_eq_ok.mp hfound)
    simpa [hzero] using hanswer

theorem run_read (law : disk.Lawful view) (path : Path) (s : σ) :
    ∃ answer, (disk.read path).run s = (answer, s) ∧
      ∀ bytes, answer = .ok bytes → view.bytes? s path = some bytes :=
  ⟨_, Prod.ext rfl (law.read_state path s), law.read_answer path s⟩

theorem run_loadConfig (law : disk.Lawful view) (path : Path) (s : σ) :
    ∃ answer, (loadConfig disk path).run s = (answer, s) ∧
      ∀ config, answer = .ok config → config = view.config s path := by
  obtain ⟨answer, hrun, hfound⟩ := run_hasFile law path s
  rw [loadConfig, run_bind_eq hrun]
  match answer with
  | .error escape => exact ⟨_, rfl, fun config hconfig => by cases hconfig⟩
  | .ok false =>
    refine ⟨_, rfl, fun config hconfig => ?_⟩
    cases hconfig
    unfold Disk.View.config
    cases hbytes : view.bytes? s path with
    | none => rfl
    | some bytes =>
      -- a file that is not found for all that has a path that no file can have
      have hzero : path.holdsZero = true := by simpa [hbytes] using hfound false rfl
      exact (if_pos hzero).symm
  | .ok true =>
    have hzero : path.holdsZero = false := by
      simpa using (Bool.and_eq_true_iff.mp (hfound true rfl).symm).1
    obtain ⟨read, hread, hbytes⟩ := run_read law path s
    refine ⟨_, run_bind_eq hread, fun config hconfig => ?_⟩
    cases read with
    | error fault => cases hconfig
    | ok bytes =>
      cases hconfig
      simp [Disk.View.config, hbytes bytes rfl, hzero]

/-! ## The one write -/

/-- A conversion either fails and leaves everything as it was, or has all of its output ready and
ends with the write. -/
theorem convertFile_cases (law : disk.Lawful view) {s s' : σ}
    (h : (convertFile disk verbosity settings).run s = (outcome, s')) :
    (outcome.ending ≠ .returned 0 ∧ s' = s) ∨
    (outcome.ending = .returned 0 ∧ ∃ bytes prepared,
      view.bytes? s settings.input = some bytes ∧
      prepare verbosity settings (decode bytes) = .ok prepared ∧
      (disk.write settings.output (encode prepared.output)).run s = (none, s')) := by
  obtain ⟨read, hread, hbytes⟩ := run_read law settings.input s
  rw [convertFile, run_bind_eq hread] at h
  cases read with
  | error fault =>
    cases h
    exact .inl ⟨by simp, rfl⟩
  | ok bytes =>
    cases hprepare : prepare verbosity settings (decode bytes) with
    | error why =>
      simp only [hprepare] at h
      cases h
      exact .inl ⟨by simp, rfl⟩
    | ok prepared =>
      simp only [hprepare] at h
      split at h
      · cases h
        exact .inl ⟨by simp, rfl⟩
      · obtain ⟨answer, after, hwrite⟩ : ∃ answer after,
            (disk.write settings.output (encode prepared.output)).run s = (answer, after) :=
          ⟨_, _, rfl⟩
        rw [run_bind_eq hwrite] at h
        cases answer with
        | none =>
          cases h
          exact .inr ⟨rfl, bytes, prepared, hbytes bytes rfl, hprepare, hwrite⟩
        | some fault =>
          cases h
          exact .inl ⟨by simp, law.write_fault _ _ s fault _ hwrite⟩

/-- A run for an input file either fails and leaves everything as it was, or found the file and its
settings and ends with the write of the output. -/
theorem runInput_cases (law : disk.Lawful view) {input : Text} {s s' : σ}
    (h : (runInput disk a input).run s = (outcome, s')) :
    (outcome.ending ≠ .returned 0 ∧ s' = s) ∨
    (outcome.ending = .returned 0 ∧ ∃ table settings bytes prepared,
      view.config s (configPath a (Path.ofText input)) = .ok table ∧
      resolve a (Path.ofText input) table = .ok settings ∧
      view.bytes? s (Path.ofText input) = some bytes ∧
      prepare a.verbosity settings (decode bytes) = .ok prepared ∧
      (disk.write settings.output (encode prepared.output)).run s = (none, s')) := by
  obtain ⟨answer, hrun, -⟩ := run_hasFile law (Path.ofText input) s
  rw [runInput, run_bind_eq hrun] at h
  match answer with
  | .error escape | .ok false =>
    cases h
    exact .inl ⟨by simp, rfl⟩
  | .ok true =>
    obtain ⟨loaded, hload, hconfig⟩ := run_loadConfig law (configPath a (Path.ofText input)) s
    simp only [run_bind_eq hload] at h
    cases loaded with
    | error escape =>
      cases h
      exact .inl ⟨by simp, rfl⟩
    | ok config =>
      rcases settingsOf_cases a (Path.ofText input) config with
        ⟨failed, hsettings, hending⟩ | ⟨settings, table, hsettings, htable, hresolve⟩
      · simp only [hsettings] at h
        cases h
        exact .inl ⟨hending, rfl⟩
      · simp only [hsettings] at h
        have hinput := resolve_input hresolve
        rcases convertFile_cases law h with
          hfail | ⟨hending, bytes, prepared, hbytes, hprepare, hwrite⟩
        · exact .inl hfail
        · exact .inr ⟨hending, table, settings, bytes, prepared,
            (hconfig config rfl).symm.trans htable, hresolve, hinput ▸ hbytes, hprepare, hwrite⟩

/-- A run that fails leaves all files as they were. A run that succeeds for an input file changes
the output file at most: its bytes then spell one line for each file to include, and the converted
document. -/
theorem run_changes_output_only (law : disk.Lawful view) (texts : List Text) (dialect : Dialect)
    (s s' : σ) (outcome : Outcome) (hrun : (run disk texts dialect).run s = (outcome, s')) :
    (outcome.ending ≠ .returned 0 → s' = s) ∧
    (outcome.ending = .returned 0 → ∃ a, Arguments.parse texts dialect = .ok a ∧
      match a.input with
      | none => s' = s
      | some input => ∃ table settings bytes reading d, ∃ names : List Text, ∃ text place written,
        view.config s (configPath a (Path.ofText input)) = .ok table ∧
        resolve a (Path.ofText input) table = .ok settings ∧
        view.bytes? s (Path.ofText input) = some bytes ∧
        Text.Spells bytes (decode bytes) ∧
        Reading.ofSource (decode bytes) settings.radix = .ok reading ∧
        reading.document.converted = .ok d ∧
        (∀ radix, settings.radix = some radix →
          convertDocument (decode bytes) radix = .ok d) ∧
        settings.includes = names.map some ∧
        d.render = .ok text ∧
        view.place? s settings.output = some place ∧
        view.lookup? s' place = some (.file written) ∧
        Text.Spells written (names.flatMap (fun name =>
          ofString ".INCLUDE \"" ++ name ++ ofString "\"" ++ d.newline) ++ text) ∧
        ∀ other, other ≠ place → view.lookup? s' other = view.lookup? s other) := by
  unfold run at hrun
  cases hparse : Arguments.parse texts dialect with
  | error failed =>
    simp only [hparse] at hrun
    cases failed <;> cases hrun <;> simp
  | ok a =>
    simp only [hparse] at hrun
    cases hinput : a.input with
    | none =>
      simp only [hinput] at hrun
      cases hrun
      exact ⟨fun _ => rfl, fun _ => ⟨a, rfl, by simp only [hinput]⟩⟩
    | some input =>
      simp only [hinput] at hrun
      rcases runInput_cases law hrun with ⟨hending, rfl⟩ |
        ⟨hending, table, settings, bytes, prepared, htable, hresolve, hbytes, hprepare, hwrite⟩
      · exact ⟨fun _ => rfl, fun h => absurd h hending⟩
      · refine ⟨fun h => absurd hending h, fun _ => ⟨a, rfl, ?_⟩⟩
        obtain ⟨reading, d, names, text, hreading, hd, hnames, htext, houtput⟩ :=
          prepare_eq_ok hprepare
        obtain ⟨place, hplace, hwritten, hothers⟩ := law.write_done _ _ _ _ hwrite
        simp only [hinput]
        refine ⟨table, settings, bytes, reading, d, names, text, place, _, htable, hresolve, hbytes,
          Text.spells_decode bytes, hreading, hd, fun radix hradix => ?_, hnames, htext, hplace,
          hwritten, houtput ▸ Text.spells_encode _, hothers⟩
        rw [hradix] at hreading
        rw [convertDocument, read, hreading]
        exact hd

/-- The output can be the input file itself, under another name of it. If the input may not be read,
the run fails, and no file is changed. -/
theorem run_changes_output_only_in_place :
    let files : Files := [([ofString "a.mac"], .file (encode "LDAI \"A\" ;\n" ++ [0xFF])),
      ([ofString "b.mac"], .file [])]
    let texts : List Text := ["-I", "sys.inc", "a.mac", "-o", "./a.mac"]
    let wanted := ".INCLUDE \"macros.inc\"\n.INCLUDE \"sys.inc\"\nLDA #'A' ;\n"
    (∃ outcome after, (run Files.disk texts).run files = (outcome, after) ∧
      outcome.ending = .returned 0 ∧
      after.lookup? [ofString "a.mac"] =
        some (.file (wanted.toList.flatMap String.utf8EncodeChar ++ [0xFF])) ∧
      ∀ other, other ≠ [ofString "a.mac"] → after.lookup? other = files.lookup? other) ∧
    ∃ outcome, (run (Files.lockedDisk fun _ => true) texts).run files = (outcome, files) ∧
      outcome.ending = .returned 2 := by
  intro files texts wanted
  have hdone : ((run Files.disk texts).run files).1.ending = .returned 0 := by decide +kernel
  have hwritten : ((run Files.disk texts).run files).2.lookup? [ofString "a.mac"] =
      some (.file (wanted.toList.flatMap String.utf8EncodeChar ++ [0xFF])) := by decide +kernel
  have hchanged : files.lookup? [ofString "a.mac"] ≠
      some (.file (wanted.toList.flatMap String.utf8EncodeChar ++ [0xFF])) := by decide +kernel
  have hparse : (Arguments.parse texts).toOption.any fun a =>
      decide (a.input = some (ofString "a.mac")) := by decide +kernel
  have hlocked : ((run (Files.lockedDisk fun _ => true) texts).run files).1.ending =
      .returned 2 := by decide +kernel
  clear_value files texts wanted
  constructor
  · obtain ⟨⟨outcome, after⟩, hrun⟩ : ∃ result, (run Files.disk texts).run files = result :=
      ⟨_, rfl⟩
    rw [hrun] at hdone hwritten
    obtain ⟨a, ha, h⟩ :=
      (run_changes_output_only (Files.lawful_disk _) texts .older files _ _ hrun).2 hdone
    obtain ⟨a', ha', hinput⟩ := exists_eq_ok_of_any hparse
    cases ha.symm.trans ha'
    simp only [of_decide_eq_true hinput] at h
    obtain ⟨-, -, -, -, -, -, -, place, -, -, -, -, -, -, -, -, -, -, -, -, -, hothers⟩ := h
    -- The file that has changed is the one that is written.
    obtain rfl : [ofString "a.mac"] = place := by
      by_contra hne
      exact hchanged ((hothers _ hne).symm.trans hwritten)
    exact ⟨outcome, after, hrun, hdone, hwritten, hothers⟩
  · obtain ⟨⟨outcome, after⟩, hrun⟩ :
        ∃ result, (run (Files.lockedDisk fun _ => true) texts).run files = result := ⟨_, rfl⟩
    rw [hrun] at hlocked
    obtain rfl := (run_changes_output_only (Files.lawful_disk _) texts .older files _ _ hrun).1
      (by rw [hlocked]; decide)
    exact ⟨outcome, hrun, hlocked⟩

end

end Macro10.CommandLine
