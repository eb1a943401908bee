import LoxArith.FileTree

set_option autoImplicit false

/-! # What is saved is what is read

Saving makes folders and puts one file. Neither takes a folder away (`FileTree.KeepsFolders`), and
folders are all that a path depends on: it leads to the same place as long as the folders on
its way stay. So the path of a file that was saved leads to this file afterwards, and the folder
that holds it is there. A tree of which this is true (`FileTree.Holds`) can be saved to
again, which makes no folder any more.
-/

namespace LoxArith

namespace FileTree

variable {tree after : FileTree} {place target : Place} {path : String} {names : List String}
  {content : ByteArray}

/-! ## Putting an entry -/

theorem entry?_put (tree : FileTree) (place other : Place) (entry : Entry) :
    entry? (tree.put place entry) other =
      if other.isFixed then some .folder
      else if other.path == place.path then some entry else tree.entry? other := by
  unfold entry? put
  dsimp only
  by_cases hfixed : other.isFixed
  · rw [if_pos hfixed, if_pos hfixed]
  · rw [if_neg hfixed, if_neg hfixed, if_neg hfixed, List.lookup_cons]
    cases other.path == place.path <;> rfl

theorem isFixed_of_entry? (h : tree.entry? place ≠ some .folder) : place.isFixed = false := by
  refine Bool.eq_false_iff.2 fun hfixed => h ?_
  rw [ entry?, if_pos hfixed]

/-- The entry stands where it was put, if there was no folder. -/
theorem entry?_put_self (h : tree.entry? place ≠ some .folder) (entry : Entry) :
    entry? (tree.put place entry) place = some entry := by
  rw [entry?_put, isFixed_of_entry? h]
  simp

/-- Putting what stands there changes nothing. -/
theorem entry?_put_of_eq {entry : Entry} (h : tree.entry? place = some entry)
    (hentry : entry ≠ .folder) (other : Place) :
    entry? (tree.put place entry) other = tree.entry? other := by
  have hfixed := isFixed_of_entry? (h ▸ fun heq => hentry (Option.some.inj heq))
  rw [entry?_put]
  split
  · rename_i hother
    rw [ entry?, if_pos hother]
  · rename_i hother
    split
    · rename_i hpath
      -- what stands at a place depends on its path alone
      rw [← h, entry?, entry?, hfixed, if_neg Bool.false_ne_true, if_neg hother,
        eq_of_beq hpath]
    · rfl

/-! ## Keeping folders -/

/-- What is a folder stays one. -/
def KeepsFolders (tree after : FileTree) : Prop :=
  ∀ place, tree.entry? place = some .folder → after.entry? place = some .folder

theorem KeepsFolders.trans {middle : FileTree} (h : tree.KeepsFolders middle)
    (h' : middle.KeepsFolders after) : tree.KeepsFolders after :=
  fun place hplace => h' place (h place hplace)

theorem keepsFolders_put (h : tree.entry? place ≠ some .folder) (entry : Entry) :
    tree.KeepsFolders (tree.put place entry) := by
  intro other hother
  rw [entry?_put]
  split
  · rfl
  · rename_i hfixed
    split
    · rename_i hpath
      refine absurd ?_ h
      rw [ entry?, isFixed_of_entry? h, if_neg Bool.false_ne_true, ← eq_of_beq hpath, ← hother,
        entry?, if_neg hfixed]
    · exact hother

/-- A path leads to the same place as long as the folders stay. -/
theorem KeepsFolders.walk (h : tree.KeepsFolders after)
    (hwalk : tree.walk place names = .ok target) : after.walk place names = .ok target := by
  induction names generalizing place with
  | nil => exact hwalk
  | cons name names ih =>
      unfold FileTree.walk at hwalk ⊢
      split at hwalk
      · cases hwalk
      · cases hwalk
      · rename_i hfolder
        rw [h place hfolder]
        dsimp only
        split at hwalk
        · cases hwalk
        · exact ih hwalk

theorem KeepsFolders.locate (h : tree.KeepsFolders after)
    (hlocate : tree.locate path = .ok target) : after.locate path = .ok target := by
  unfold FileTree.locate at hlocate ⊢
  split at hlocate
  · cases hlocate
  · rename_i hne
    rw [if_neg hne]
    split at hlocate
    · cases hlocate
    · rename_i hshort
      rw [if_neg hshort]
      exact h.walk hlocate

/-! ## Making folders -/

/-- The names lead from a place along folders. -/
def Leads (tree : FileTree) : Place → List String → Prop
  | _, [] => True
  | place, name :: names => ∃ next, place.step name = .ok next ∧
      tree.entry? next = some .folder ∧ tree.Leads next names

theorem Leads.of_keepsFolders (h : tree.Leads place names) (hkeeps : tree.KeepsFolders after) :
    after.Leads place names := by
  induction names generalizing place with
  | nil => trivial
  | cons name names ih =>
      obtain ⟨next, hstep, hfolder, hmore⟩ := h
      exact ⟨next, hstep, hkeeps next hfolder, ih hmore⟩

/-- Where there are folders, none are made. -/
theorem makeFolders_of_leads (h : tree.Leads place names) (missing : Bool) :
    tree.makeFolders place missing names = .ok tree := by
  induction names generalizing place with
  | nil => rfl
  | cons name names ih =>
      obtain ⟨next, hstep, hfolder, hmore⟩ := h
      rw [makeFolders, hstep]
      dsimp only
      rw [hfolder]
      exact ih hmore

/-- The folders that are made are there afterwards, and so are those that were there. -/
theorem makeFolders_eq_ok {missing : Bool}
    (h : tree.makeFolders place missing names = .ok after) :
    tree.KeepsFolders after ∧ after.Leads place names := by
  induction names generalizing tree place missing with
  | nil =>
      obtain rfl : tree = after := Except.ok.inj h
      exact ⟨fun _ hfolder => hfolder, trivial⟩
  | cons name names ih =>
      unfold makeFolders at h
      split at h
      · cases h
      · rename_i next hstep
        split at h
        · rename_i hfolder
          obtain ⟨hkeeps, hleads⟩ := ih h
          exact ⟨hkeeps, next, hstep, hkeeps next hfolder, hleads⟩
        · cases h
        · rename_i hnone
          have hnew : tree.entry? next ≠ some .folder := by
            rw [hnone]
            nofun
          obtain ⟨hkeeps, hleads⟩ := ih h
          exact ⟨(keepsFolders_put hnew _).trans hkeeps, next, hstep,
            hkeeps next (entry?_put_self hnew _), hleads⟩

/-! ## Saving -/

/-- A file with this content is where the path leads, and the folder that holds it can be reached by
the path of that folder. -/
structure Holds (tree : FileTree) (path : String) (content : ByteArray) : Prop where
  short : ("/".intercalate (namesAbove path).reverse).utf8ByteSize ≤ longestPath
  leads : tree.Leads (startOf path) (namesAbove path).reverse
  located : ∃ place, tree.locate path = .ok place ∧ tree.entry? place = some (.file content)

theorem Holds.readBytes (h : tree.Holds path content) : tree.readBytes path = .ok content := by
  obtain ⟨place, hlocate, hentry⟩ := h.located
  simp only [FileTree.readBytes, hlocate, bind, Except.bind, hentry]
  rfl

theorem Holds.readText {text : String} (h : tree.Holds path text.toUTF8) :
    tree.readText path = .ok text := by
  have htext : String.fromUTF8? text.toUTF8 = some text := dif_pos text.isValidUTF8
  simp only [FileTree.readText, h.readBytes, bind, Except.bind, htext]
  rfl

theorem writeFile_eq_ok_iff :
    tree.writeFile path content = .ok after ↔
      ∃ place, tree.locate path = .ok place ∧ tree.entry? place ≠ some .folder ∧
        tree.put place (.file content) = after := by
  unfold writeFile
  cases tree.locate path with
  | error error =>
      constructor
      · intro h
        cases h
      · rintro ⟨_, ⟨⟩, _⟩
  | ok place =>
      simp only [bind, Except.bind]
      constructor
      · intro h
        split at h
        · cases h
        · rename_i hother
          exact ⟨place, rfl, hother, Except.ok.inj h⟩
      · rintro ⟨_, ⟨⟩, hother, rfl⟩
        split
        · rename_i hfolder
          exact absurd hfolder hother
        · rfl

/-- **A file that was saved is there**, and so is the folder that holds it. -/
theorem holds_of_save (h : tree.save path content = .ok after) : after.Holds path content := by
  cases hmiddle : tree.makeFolderOf path with
  | error error =>
      rw [save, hmiddle] at h
      cases h
  | ok middle =>
      rw [save, hmiddle] at h
      obtain ⟨place, hlocate, hother, rfl⟩ := writeFile_eq_ok_iff.1 h
      have hkeeps := keepsFolders_put hother (.file content)
      unfold makeFolderOf at hmiddle
      dsimp only at hmiddle
      split at hmiddle
      · cases hmiddle
      · rename_i hshort
        have hleads := (makeFolders_eq_ok hmiddle).2
        exact ⟨Nat.le_of_not_lt hshort, hleads.of_keepsFolders hkeeps, place,
          hkeeps.locate hlocate, entry?_put_self hother _⟩

/-- **A file that is there can be saved again**, which changes nothing. -/
theorem Holds.exists_save (h : tree.Holds path content) :
    ∃ again, tree.save path content = .ok again ∧
      ∀ place, again.entry? place = tree.entry? place := by
  obtain ⟨place, hlocate, hentry⟩ := h.located
  have hfolders : tree.makeFolderOf path = .ok tree := by
    rw [makeFolderOf, if_neg (Nat.not_lt_of_le h.short)]
    exact makeFolders_of_leads h.leads false
  have hother : tree.entry? place ≠ some .folder := by
    rw [hentry]
    nofun
  refine ⟨tree.put place (.file content), ?_, entry?_put_of_eq hentry nofun⟩
  rw [save, hfolders]
  exact writeFile_eq_ok_iff.2 ⟨place, hlocate, hother, rfl⟩

end FileTree

end LoxArith
