import LoxArith.CommandLine
import LoxArith.Proofs.FileTree
import LoxArith.Proofs.Json.RoundTrip

set_option autoImplicit false

/-! # Settings that were loaded can be saved

Whatever stands in the settings file, and be it nothing, the program loads some settings. If it
saves these, it loads the same ones again (`load_saved`). Three things come together: the file that
was saved is the file that is read (`FileTree.holds_of_save`), its text is read as the settings that
it was written for (`Settings.load_fileText`), and the variables, which are applied once more, do
not change settings that they were applied to (`Settings.withOverrides_load`).
-/

namespace LoxArith

namespace Settings

/-! ## The text of the settings -/

/-- The settings are read back from their document. -/
theorem ofJson?_toJson (s : Settings) : ofJson? s.toJson = some s := by
  have hfields : s.toJson.fields? ["env_name", "print_code", "trace_execution", "prompt"]
      = some [some (.text s.name), some (.bool s.printCode), some (.bool s.trace),
        some (.text s.prompt)] := rfl
  rw [ofJson?, hfields]
  rfl

/-- The settings are read back from their text, whatever characters they have. -/
theorem ofText?_fileText (s : Settings) : Json.ofText? s.fileText = some s.toJson := by
  have hwellFormed : s.toJson.WellFormed := ⟨trivial, trivial, trivial, trivial, trivial⟩
  have hblanks : ∀ b ∈ "".toList, isSpace b = true := nofun
  have hread := Json.ofText?_writeAt (some 0) hwellFormed hblanks
  rwa [String.append_empty] at hread

/-- The text of settings is loaded as these settings, with the variables applied. -/
theorem load_fileText (s : Settings) (env : Environment) :
    load env (some s.fileText) = s.withOverrides env := by
  show (((Json.ofText? s.fileText).bind ofJson?).getD (default env)).withOverrides env = _
  rw [ofText?_fileText, Option.bind_some, ofJson?_toJson, Option.getD_some]

/-! ## Applying the variables -/

theorem overridden_overridden (value : Option String) (setting : Bool) :
    overridden value (overridden value setting) = overridden value setting := by
  cases value <;> rfl

/-- The variables do not change what was loaded under them. -/
theorem withOverrides_load (env : Environment) (contents : Option String) :
    (load env contents).withOverrides env = load env contents := by
  unfold load withOverrides
  simp only [overridden_overridden]

end Settings

/-! ## Saving and loading -/

section

variable {tree after : FileTree} {env : Environment} {input : ByteArray} {settings : Settings}

theorem loadSettings_run (tree : FileTree) (env : Environment) (input : ByteArray) :
    ((Host.ofTree input).loadSettings env).run tree
      = (Settings.load env (tree.readText (Settings.path env)).toOption, tree) := rfl

theorem save_run_eq_ok_iff {path text : String} :
    ((Host.ofTree input).save path text).run tree = (.ok (), after) ↔
      tree.save path text.toUTF8 = .ok after := by
  simp only [Host.ofTree, bind, StateT.bind, StateT.run, get, getThe, MonadStateOf.get, StateT.get,
    pure]
  cases tree.save path text.toUTF8 with
  | ok saved =>
      constructor
      · intro h
        exact congrArg Except.ok (Prod.mk.inj h).2
      · rintro ⟨⟩
        rfl
  | error error =>
      constructor
      · intro h
        cases (Prod.mk.inj h).1
      · intro h
        cases h

/-- **Saving what was loaded is a fixed point.** Let the program load settings from a tree, whatever
stands in the settings file, and save them. If this succeeds, it loads the same settings from the
tree that it saved to, under the same variables. Saving these succeeds as well, and afterwards the
settings file has the same bytes, and every other entry of the tree is the same too. -/
theorem load_saved
    (hload : (((Host.ofTree input).loadSettings env).run tree).1 = settings)
    (hsave : ((Host.ofTree input).save (Settings.path env) settings.fileText).run tree
      = (.ok (), after)) :
    ((Host.ofTree input).loadSettings env).run after = (settings, after) ∧
    after.readBytes (Settings.path env) = .ok settings.fileText.toUTF8 ∧
    ∃ again, ((Host.ofTree input).save (Settings.path env) settings.fileText).run after
        = (.ok (), again) ∧
      again.readBytes (Settings.path env) = .ok settings.fileText.toUTF8 ∧
      ∀ place, again.entry? place = after.entry? place := by
  rw [loadSettings_run] at hload
  have hholds := FileTree.holds_of_save (save_run_eq_ok_iff.1 hsave)
  obtain ⟨again, hagain, hsame⟩ := hholds.exists_save
  refine ⟨?_, hholds.readBytes, again, save_run_eq_ok_iff.2 hagain,
    (FileTree.holds_of_save hagain).readBytes, hsame⟩
  have hsettings : Settings.load env (some settings.fileText) = settings := by
    rw [Settings.load_fileText, ← hload, Settings.withOverrides_load]
  rw [loadSettings_run, hholds.readText]
  show (Settings.load env (some settings.fileText), after) = _
  rw [hsettings]

end

/-- The settings file is in the folder `.lox` itself, and a variable turns the trace on. -/
def shortEnvironment : Environment :=
  { home := some "", name := some "", trace := some " ON " }

/-- A settings file that gives its fields without their names, and not all of them. -/
def unnamedTree : FileTree :=
  ⟨[(".lox/config.json", .file "[\"x\",true]".toUTF8), (".lox", .folder)]⟩

theorem splitOn_shortPath : ".lox/config.json".splitOn "/" = [".lox", "config.json"] := by
  rw [String.splitOn, if_neg (by decide +kernel)]
  iterate 4 rw [String.splitOnAux, if_neg (by decide +kernel), if_neg (by decide +kernel)]
  rw [String.splitOnAux, if_neg (by decide +kernel), if_pos (by decide +kernel)]
  dsimp only
  rw [if_pos (by decide +kernel)]
  iterate 11 rw [String.splitOnAux, if_neg (by decide +kernel), if_neg (by decide +kernel)]
  rw [String.splitOnAux, if_pos (by decide +kernel)]
  decide +kernel

theorem locate_unnamedTree :
    unnamedTree.locate ".lox/config.json" = .ok ["config.json", ".lox"] := by
  rw [FileTree.locate, if_neg (by decide +kernel), if_neg (by decide +kernel), splitOn_shortPath,
    show startOf ".lox/config.json" = [] by decide +kernel]
  rfl

theorem readText_unnamedTree : unnamedTree.readText ".lox/config.json" = .ok "[\"x\",true]" := by
  have hbytes : unnamedTree.readBytes ".lox/config.json" = .ok "[\"x\",true]".toUTF8 := by
    rw [FileTree.readBytes, locate_unnamedTree]
    rfl
  have htext : String.fromUTF8? "[\"x\",true]".toUTF8 = some "[\"x\",true]" := by decide +kernel
  simp only [FileTree.readText, hbytes, bind, Except.bind, htext]
  rfl

theorem save_unnamedTree (content : ByteArray) :
    unnamedTree.save ".lox/config.json" content
      = .ok (unnamedTree.put ["config.json", ".lox"] (.file content)) := by
  have hnames : namesAbove ".lox/config.json" = [".lox"] := by
    rw [namesAbove, splitOn_shortPath]
    decide +kernel
  have hleads : unnamedTree.Leads [] [".lox"] := ⟨[".lox"], rfl, rfl, trivial⟩
  have hfolder : unnamedTree.makeFolderOf ".lox/config.json" = .ok unnamedTree := by
    rw [FileTree.makeFolderOf, hnames, if_neg (by decide +kernel),
      show startOf ".lox/config.json" = [] by decide +kernel]
    exact FileTree.makeFolders_of_leads hleads false
  have hentry : unnamedTree.entry? ["config.json", ".lox"]
      = some (.file "[\"x\",true]".toUTF8) := rfl
  have hother : unnamedTree.entry? ["config.json", ".lox"] ≠ some .folder := by
    rw [hentry]
    nofun
  rw [FileTree.save, hfolder]
  exact FileTree.writeFile_eq_ok_iff.2 ⟨_, locate_unnamedTree, hother, rfl⟩

/-- What the file leaves out is the default, and the trace is saved as the variable sets it. -/
theorem load_saved_unnamed :
    ∃ after, (((Host.ofTree ⟨#[]⟩).loadSettings shortEnvironment).run unnamedTree).1
        = ⟨"x", true, true, "> "⟩ ∧
      ((Host.ofTree ⟨#[]⟩).save (Settings.path shortEnvironment)
        (Settings.fileText ⟨"x", true, true, "> "⟩)).run unnamedTree = (.ok (), after) ∧
      ((Host.ofTree ⟨#[]⟩).loadSettings shortEnvironment).run after
        = (⟨"x", true, true, "> "⟩, after) := by
  have hpath : Settings.path shortEnvironment = ".lox/config.json" := by decide +kernel
  have hload : (((Host.ofTree ⟨#[]⟩).loadSettings shortEnvironment).run unnamedTree).1
      = ⟨"x", true, true, "> "⟩ := by
    rw [loadSettings_run, hpath, readText_unnamedTree]
    decide +kernel
  have hsaved := save_unnamedTree (Settings.fileText ⟨"x", true, true, "> "⟩).toUTF8
  rw [← hpath] at hsaved
  have hsave := (@save_run_eq_ok_iff _ _ ⟨#[]⟩ _ _).2 hsaved
  exact ⟨_, hload, hsave, (load_saved hload hsave).1⟩

end LoxArith
