import DiagramTint.FileSystem

/-!
# Storing files

Putting a file where no directory stands leaves every path leading where it led.  So a file that
was written is read back, and a path that took a file once, its directory being made if needed,
takes one again.
-/

namespace DiagramTint

namespace FileSystem

/-! ## Putting an entry -/

theorem entry?_put (fs : FileSystem) {place : Place} (entry : Entry) (hplace : place ≠ [])
    (other : Place) :
    entry? (fs.put place entry) other = if other = place then some entry else fs.entry? other := by
  cases other with
  | nil => rw [if_neg (Ne.symm hplace)]; rfl
  | cons name names =>
      simp only [put, entry?, List.lookup_cons]
      by_cases h : name :: names = place
      · simp [h]
      · simp [h, beq_false_of_ne h]

theorem ne_nil_of_not_directory {fs : FileSystem} {place : Place}
    (h : fs.entry? place ≠ some .directory) : place ≠ [] := by
  intro hnil
  apply h
  rw [hnil]
  rfl

theorem entry?_put_directory {fs : FileSystem} {place other : Place} (entry : Entry)
    (h : fs.entry? place ≠ some .directory) (hother : fs.entry? other = some .directory) :
    entry? (fs.put place entry) other = some .directory := by
  have hne : other ≠ place := fun heq => h (heq ▸ hother)
  rw [entry?_put fs entry (ne_nil_of_not_directory h), if_neg hne, hother]

/-! ## Paths after putting an entry -/

theorem enter_eq_ok {fs : FileSystem} {place next : Place} {part : String}
    (h : fs.enter place part = .ok next) :
    fs.entry? place = some .directory ∧
      next = if part = ".." then place.dropLast else place ++ [part] := by
  unfold enter at h
  split at h
  · cases h
  · cases h
  · rename_i hentry
    rw [Except.ok.injEq] at h
    exact ⟨hentry, h.symm⟩

theorem enter_of_directory {fs : FileSystem} {place : Place} (part : String)
    (h : fs.entry? place = some .directory) :
    fs.enter place part = .ok (if part = ".." then place.dropLast else place ++ [part]) := by
  rw [enter, h]

theorem enter_put {fs : FileSystem} {place start next : Place} {part : String} (entry : Entry)
    (h : fs.entry? place ≠ some .directory) (henter : fs.enter start part = .ok next) :
    (fs.put place entry).enter start part = .ok next := by
  obtain ⟨hstart, hnext⟩ := enter_eq_ok henter
  rw [enter_of_directory part (entry?_put_directory entry h hstart), hnext]

theorem foldlM_enter_put {fs : FileSystem} {place start stop : Place} {parts : List String}
    (entry : Entry) (h : fs.entry? place ≠ some .directory)
    (hwalk : parts.foldlM fs.enter start = .ok stop) :
    parts.foldlM (fs.put place entry).enter start = .ok stop := by
  induction parts generalizing start with
  | nil => exact hwalk
  | cons part parts ih =>
      rw [List.foldlM_cons] at hwalk ⊢
      cases henter : fs.enter start part with
      | error e =>
          rw [henter] at hwalk
          cases hwalk
      | ok next =>
          rw [henter] at hwalk
          rw [enter_put entry h henter]
          exact ih hwalk

theorem locate_put {fs : FileSystem} {place stop : Place} {path : PathName} (entry : Entry)
    (h : fs.entry? place ≠ some .directory) (hlocate : fs.locate path = .ok stop) :
    (fs.put place entry).locate path = .ok stop :=
  foldlM_enter_put entry h hlocate

/-! ## Writing and reading -/

theorem write_eq_ok {fs stored : FileSystem} {path : PathName} {content : ByteArray}
    (h : fs.write path content = .ok stored) :
    ∃ place, fs.locate path = .ok place ∧ path.namesDirectory = false ∧
      fs.entry? place ≠ some .directory ∧ stored = fs.put place (.file content) := by
  unfold write at h
  split at h
  · cases h
  · rename_i place hlocate
    split at h
    · cases h
    · rename_i hnames
      split at h
      · cases h
      · rename_i hentry
        rw [Except.ok.injEq] at h
        exact ⟨place, hlocate, by simpa using hnames, hentry, h.symm⟩

theorem write_of_locate {fs : FileSystem} {path : PathName} {place : Place} (content : ByteArray)
    (hlocate : fs.locate path = .ok place) (hnames : path.namesDirectory = false)
    (hentry : fs.entry? place ≠ some .directory) :
    fs.write path content = .ok (fs.put place (.file content)) := by
  simp only [write, hlocate, hnames, Bool.false_eq_true, if_false]

theorem read_of_write {fs stored : FileSystem} {path : PathName} {content : ByteArray}
    (h : fs.write path content = .ok stored) : stored.read path = .ok content := by
  obtain ⟨place, hlocate, hnames, hentry, rfl⟩ := write_eq_ok h
  have hput := entry?_put fs (.file content) (ne_nil_of_not_directory hentry) place
  rw [if_pos rfl] at hput
  unfold read
  rw [locate_put _ hentry hlocate]
  simp [hput, hnames]

/-! ## Making directories -/

/-- Each part leads from a place to a directory. -/
def Leads (fs : FileSystem) (place : Place) : List String → Prop
  | [] => True
  | part :: parts =>
    ∃ next, fs.enter place part = .ok next ∧ fs.entry? next = some .directory ∧
      fs.Leads next parts

theorem Leads.put {fs : FileSystem} {place start : Place} {parts : List String} (entry : Entry)
    (h : fs.entry? place ≠ some .directory) (hleads : fs.Leads start parts) :
    (fs.put place entry).Leads start parts := by
  induction parts generalizing start with
  | nil => trivial
  | cons part parts ih =>
      obtain ⟨next, henter, hnext, hrest⟩ := hleads
      exact ⟨next, enter_put entry h henter, entry?_put_directory entry h hnext, ih hrest⟩

theorem makeAlong_of_leads {fs : FileSystem} {place : Place} {parts : List String}
    (h : fs.Leads place parts) : fs.makeAlong place parts = (fs, .ok ()) := by
  induction parts generalizing place with
  | nil => rfl
  | cons part parts ih =>
      obtain ⟨next, henter, hnext, hrest⟩ := h
      simp only [makeAlong, henter, hnext]
      exact ih hrest

theorem makeAlong_cons {fs made : FileSystem} {place : Place} {part : String} {parts : List String}
    (h : fs.makeAlong place (part :: parts) = (made, .ok ())) :
    ∃ next, fs.enter place part = .ok next ∧
      ((fs.entry? next = none ∧ (fs.put next .directory).makeAlong next parts = (made, .ok ())) ∨
        (fs.entry? next = some .directory ∧ fs.makeAlong next parts = (made, .ok ()))) := by
  unfold makeAlong at h
  split at h
  · cases h
  · rename_i next henter
    refine ⟨next, henter, ?_⟩
    split at h
    · rename_i hnone
      exact .inl ⟨hnone, h⟩
    · rename_i hdir
      exact .inr ⟨hdir, h⟩
    · cases h

/-- Making directories keeps those that exist, and the working directory. -/
theorem makeAlong_keeps {fs made : FileSystem} {place : Place} {parts : List String}
    (h : fs.makeAlong place parts = (made, .ok ())) :
    made.current = fs.current ∧
      ∀ other, fs.entry? other = some .directory → made.entry? other = some .directory := by
  induction parts generalizing fs place with
  | nil =>
      cases h
      exact ⟨rfl, fun _ hother => hother⟩
  | cons part parts ih =>
      obtain ⟨next, -, ⟨hnone, hmade⟩ | ⟨-, hmade⟩⟩ := makeAlong_cons h
      · obtain ⟨hcurrent, hkeeps⟩ := ih hmade
        refine ⟨hcurrent, fun other hother => ?_⟩
        apply hkeeps
        exact entry?_put_directory .directory (by simp [hnone]) hother
      · exact ih hmade

theorem leads_of_makeAlong {fs made : FileSystem} {place : Place} {parts : List String}
    (h : fs.makeAlong place parts = (made, .ok ())) : made.Leads place parts := by
  induction parts generalizing fs place with
  | nil => trivial
  | cons part parts ih =>
      -- what led to this part still does once the later directories are made
      have hkeeps := (makeAlong_keeps h).2
      obtain ⟨next, henter, hcases⟩ := makeAlong_cons h
      obtain ⟨hplace, hnext⟩ := enter_eq_ok henter
      have henter' : made.enter place part = .ok next := by
        rw [enter_of_directory part (hkeeps place hplace), hnext]
      rcases hcases with ⟨hnone, hmade⟩ | ⟨hdir, hmade⟩
      · have hvacant : fs.entry? next ≠ some .directory := by simp [hnone]
        have hput : entry? (fs.put next .directory) next = some .directory := by
          rw [entry?_put fs .directory (ne_nil_of_not_directory hvacant), if_pos rfl]
        exact ⟨next, henter', (makeAlong_keeps hmade).2 next hput, ih hmade⟩
      · exact ⟨next, henter', hkeeps next hdir, ih hmade⟩

/-! ## Paths that take a file -/

/-- The directory of a path can be made, and then a file can be written there. -/
def Accepts (fs : FileSystem) (path : PathName) : Prop :=
  ∃ made content stored, fs.makeDirectories path.parent = (made, .ok ()) ∧
    made.write path content = .ok stored

theorem Accepts.exists_write {fs : FileSystem} {path : PathName} (h : fs.Accepts path)
    (content : ByteArray) :
    ∃ made stored, fs.makeDirectories path.parent = (made, .ok ()) ∧
      made.write path content = .ok stored := by
  obtain ⟨made, old, stored, hmade, hwrite⟩ := h
  obtain ⟨place, hlocate, hnames, hentry, -⟩ := write_eq_ok hwrite
  exact ⟨made, _, hmade, write_of_locate content hlocate hnames hentry⟩

theorem accepts_of_write {fs made stored : FileSystem} {path : PathName} {content : ByteArray}
    (hmade : fs.makeDirectories path.parent = (made, .ok ()))
    (hwrite : made.write path content = .ok stored) : stored.Accepts path := by
  obtain ⟨place, hlocate, hnames, hentry, rfl⟩ := write_eq_ok hwrite
  have hput : entry? (made.put place (.file content)) place = some (.file content) := by
    rw [entry?_put made _ (ne_nil_of_not_directory hentry), if_pos rfl]
  have horigin : (made.put place (.file content)).origin path.parent = fs.origin path.parent := by
    rw [origin, origin, ← (makeAlong_keeps hmade).1]
    rfl
  have hleads := (leads_of_makeAlong hmade).put (.file content) hentry
  have hagain : (made.put place (.file content)).makeDirectories path.parent =
      (made.put place (.file content), .ok ()) := by
    rw [makeDirectories, horigin]
    exact makeAlong_of_leads hleads
  exact ⟨_, content, _, hagain,
    write_of_locate content (locate_put _ hentry hlocate) hnames (by simp [hput])⟩

end FileSystem

end DiagramTint
