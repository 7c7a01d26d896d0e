import DiagramTint.Proofs.Config.ReadBack

/-!
# Saving and loading over whole sessions

A session is a sequence of calls that save configurations as the user's own or load the one that is
stored.  Whatever was called before, only an invalid configuration is refused, a refusal changes no
file, and loading gives the configuration that was saved last.
-/

namespace DiagramTint.Config

/-! ## Sessions -/

/-- A call of a session. -/
inductive Call where
  | save (c : Config)
  | load

namespace Call

/-- The file system after a call. Loading only reads. -/
def perform (env : Environment) (fs : FileSystem) : Call → FileSystem
  | .save c => (Config.save env fs c).1
  | .load => fs

/-- The configuration that a call saves, if it succeeds. -/
def saved? (env : Environment) (fs : FileSystem) : Call → Option Config
  | .save c =>
    match (Config.save env fs c).2 with
    | .ok () => some c
    | .error _ => none
  | .load => none

end Call

/-- The file system after some calls. -/
def performAll (env : Environment) (fs : FileSystem) (calls : List Call) : FileSystem :=
  calls.foldl (Call.perform env) fs

/-- The configuration of the last of some calls that saved one. -/
def lastSaved? (env : Environment) (fs : FileSystem) : List Call → Option Config
  | [] => none
  | call :: calls => (lastSaved? env (call.perform env fs) calls).or (call.saved? env fs)

/-! ## One call -/

/-- A file system that takes the user's configuration at `path` and has `last` stored there, if
that is something. -/
structure Holds (fs : FileSystem) (path : String) (last : Option Config) : Prop where
  accepts : fs.Accepts (.parse path)
  valid : ∀ c ∈ last, c.validate = .ok ()
  stored : ∀ content, fs.read (.parse path) = .ok content ↔
    ∃ c ∈ last, content = encodeText c.toYaml

theorem Holds.load_eq {fs : FileSystem} {path : String} {last : Option Config}
    (h : Holds fs path last) {env : Environment} (hpath : env.configFile? = some path) :
    load env fs = last.getD {} := by
  rw [load, hpath]
  show orEmpty (ofContent (fs.read (.parse path))) = _
  cases last with
  | none =>
      cases hread : fs.read (.parse path) with
      | error e => rfl
      | ok content =>
          obtain ⟨c, hc, -⟩ := (h.stored content).mp hread
          cases hc
  | some c =>
      have hread := (h.stored (encodeText c.toYaml)).mpr ⟨c, rfl, rfl⟩
      have hvalid := h.valid c rfl
      rw [hread, ofContent]
      simp only [Except.bind, decodeText_encodeText, ofYaml_toYaml hvalid]
      rfl

theorem Holds.save_eq {fs : FileSystem} {path : String} {last : Option Config}
    (h : Holds fs path last) {env : Environment} (hpath : env.configFile? = some path)
    (c : Config) :
    (∃ e, c.validate = .error e ∧ save env fs c = (fs, .error (.invalid e))) ∨
      c.validate = .ok () ∧ ∃ stored, save env fs c = (stored, .ok ()) ∧
        Holds stored path (some c) := by
  rw [save, hpath]
  cases hvalid : c.validate with
  | error e => exact .inl ⟨e, rfl, by simp [saveTo, hvalid]⟩
  | ok u =>
      obtain ⟨made, stored, hmade, hwrite⟩ := h.accepts.exists_write (encodeText c.toYaml)
      have hread := FileSystem.read_of_write hwrite
      refine .inr ⟨rfl, stored, by simp [saveTo, hvalid, hmade, hwrite], ?_⟩
      refine ⟨FileSystem.accepts_of_write hmade hwrite, ?_, ?_⟩
      · intro d hd
        cases hd
        exact hvalid
      · intro content
        simp [hread, eq_comm]

theorem Holds.perform {fs : FileSystem} {path : String} {last : Option Config}
    (h : Holds fs path last) {env : Environment} (hpath : env.configFile? = some path)
    (call : Call) :
    Holds (call.perform env fs) path ((call.saved? env fs).or last) := by
  cases call with
  | load => exact h
  | save c =>
      rw [Call.perform, Call.saved?]
      rcases h.save_eq hpath c with ⟨e, -, hsave⟩ | ⟨-, stored, hsave, hstored⟩
      · rw [hsave]
        exact h
      · rw [hsave]
        exact hstored

/-! ## Whole sessions -/

theorem Holds.performAll {fs : FileSystem} {path : String} {last : Option Config}
    (h : Holds fs path last) {env : Environment} (hpath : env.configFile? = some path)
    (calls : List Call) :
    Holds (performAll env fs calls) path ((lastSaved? env fs calls).or last) := by
  -- the first call changes both the files and what was saved last, so both are generalised
  induction calls generalizing fs last with
  | nil => exact h
  | cons call calls ih =>
      rw [lastSaved?, Option.or_assoc]
      exact ih (h.perform hpath call)

/-- After any calls on an environment that names a place for the configuration, where none is
stored at first and files can be written: saving fails exactly for the configurations that are not
valid, a save that fails leaves all files as they are, and loading gives the configuration of the
last save that succeeded, or the empty one. -/
theorem save_load_performAll {env : Environment} {path : String} {fs : FileSystem}
    (hpath : env.configFile? = some path)
    (habsent : ∀ content, fs.read (.parse path) ≠ .ok content)
    (haccepts : fs.Accepts (.parse path)) (calls : List Call) :
    (∀ c, (∃ e, (save env (performAll env fs calls) c).2 = .error e) ↔
        ∃ e, c.validate = .error e) ∧
      (∀ c e, (save env (performAll env fs calls) c).2 = .error e →
        (save env (performAll env fs calls) c).1 = performAll env fs calls) ∧
      load env (performAll env fs calls) = (lastSaved? env fs calls).getD {} := by
  have hstart : Holds fs path none := ⟨haccepts, by simp, by simpa using habsent⟩
  have hholds := hstart.performAll hpath calls
  refine ⟨?_, ?_, ?_⟩
  · intro c
    rcases hholds.save_eq hpath c with ⟨e, hinvalid, hsave⟩ | ⟨hvalid, stored, hsave, -⟩
    · simp [hinvalid, hsave]
    · simp [hvalid, hsave]
  · intro c e he
    rcases hholds.save_eq hpath c with ⟨e, hinvalid, hsave⟩ | ⟨hvalid, stored, hsave, -⟩
    · rw [hsave]
    · rw [hsave] at he
      cases he
  · rw [hholds.load_eq hpath, Option.or_none]

/-- A session with a refusal before and after the only save. -/
def shortSession : List Call :=
  [.load, .save ⟨[⟨"Alias//String", .string⟩]⟩, .save troublesome,
    .save ⟨[⟨"Alias/*", .string⟩]⟩, .load]

theorem save_load_shortSession :
    Environment.configFile? { configDir := some "/home/tint" } = some "/home/tint/config.yaml" ∧
      (∀ content, FileSystem.read {} (.parse "/home/tint/config.yaml") ≠ .ok content) ∧
      FileSystem.Accepts {} (.parse "/home/tint/config.yaml") ∧
      (∃ e, (save { configDir := some "/home/tint" }
        (performAll { configDir := some "/home/tint" } {} shortSession) ⟨[⟨"*", .bool⟩]⟩).2 =
          .error e) ∧
      load { configDir := some "/home/tint" }
        (performAll { configDir := some "/home/tint" } {} shortSession) = troublesome := by
  have hpath : Environment.configFile? { configDir := some "/home/tint" } =
      some "/home/tint/config.yaml" := by decide
  have habsent : ∀ content,
      FileSystem.read {} (.parse "/home/tint/config.yaml") ≠ .ok content := by
    intro content h
    cases h
  have haccepts : FileSystem.Accepts {} (.parse "/home/tint/config.yaml") :=
    ⟨_, .empty, _, rfl, rfl⟩
  obtain ⟨hfails, -, hload⟩ := save_load_performAll hpath habsent haccepts shortSession
  exact ⟨hpath, habsent, haccepts, (hfails ⟨[⟨"*", .bool⟩]⟩).mpr ⟨_, rfl⟩, hload⟩

end DiagramTint.Config
