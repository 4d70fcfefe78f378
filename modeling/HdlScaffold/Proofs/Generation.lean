import HdlScaffold.Proofs.FileNames
import HdlScaffold.Proofs.ModuleFile
import HdlScaffold.Proofs.Sessions

/-!
# Written files are read again

A module that was written can be read from its file (`Session.readSource_execute_module`). A testbench
depends on a module by its outline only, so the one written along with a module is the one written
later from the module's file (`Session.execute_testbench_of_execute_module`).
-/

namespace HdlScaffold

open CommandLine (Arguments)

section Testbenches

theorem Style.instantiation_eq {s s' : Style} {m m' : Module} (hindent : s.indent = s'.indent)
    (hstrip : s.stripEndings = s'.stripEndings) (h : m.outline = m'.outline) (name margin : Text) :
    s.instantiation m name margin = s'.instantiation m' name margin := by
  obtain ⟨hname, hrest⟩ := Prod.mk.inj h
  obtain ⟨hparameters, hports⟩ := Prod.mk.inj hrest
  have hvalues : (m.parameters.map fun p => s.connection p.identifier p.passedValue)
      = m'.parameters.map fun p => s'.connection p.identifier p.passedValue := by
    rw [map_eq_of_key (fun p q hpq => ?_) hparameters]
    · simp only [Style.connection, hindent]
    · obtain ⟨hi, hd⟩ := Prod.mk.inj hpq
      simp only [Parameter.passedValue, hi, hd]
  have hsignals : (m.ports.toList.map fun p => s.connection p.identifier (p.signal s.stripEndings))
      = m'.ports.toList.map fun p => s'.connection p.identifier (p.signal s'.stripEndings) := by
    rw [map_eq_of_key (fun p q hpq => ?_) hports]
    · simp only [Style.connection, hindent, hstrip]
    · have hi := (Prod.mk.inj (Prod.mk.inj hpq).2).1
      simp only [Port.signal, hi]
  unfold Style.instantiation
  simp only [hname, hvalues, hsignals, isEmpty_eq_of_map hparameters, isEmpty_eq_of_map hports]

/-- Neither output registers nor include guards show in a testbench. -/
theorem FileOptions.testbench_eq {o o' : FileOptions} {m m' : Module}
    (hlanguage : o.language = o'.language) (htimescale : o.timescale = o'.timescale)
    (hindent : o.indent = o'.indent) (hstrip : o.stripEndings = o'.stripEndings)
    (h : m.outline = m'.outline) : o.testbench m = o'.testbench m' := by
  have hname : m.name = m'.name := (Prod.mk.inj h).1
  have hvariables : o.testbenchVariables m = o'.testbenchVariables m' := by
    funext d
    have hget := m.map_outline_get h d
    have hdeclared : ((m.ports.get d).map fun p => ['\t'] ++ o.variableDeclaration p ++ ['\n'])
        = (m'.ports.get d).map fun p => ['\t'] ++ o'.variableDeclaration p ++ ['\n'] := by
      rw [map_eq_of_key (fun p q hpq => ?_) hget]
      · simp only [Style.variableDeclaration, Style.variableFields, hindent, hlanguage, hstrip]
      · obtain ⟨hd, hrest⟩ := Prod.mk.inj hpq
        obtain ⟨hi, hw⟩ := Prod.mk.inj hrest
        simp only [Style.variableDeclaration, Style.variableFields, Port.signal, hd, hi, hw]
    unfold testbenchVariables
    rw [List.flatMap_def, List.flatMap_def, hdeclared, isEmpty_eq_of_map hget]
  have hinstance : o.instantiation m "dut".toList ['\t'] = o'.instantiation m' "dut".toList ['\t'] :=
    Style.instantiation_eq hindent hstrip h _ _
  unfold testbench timescaleLine testbenchName
  rw [hvariables, htimescale, hname, hinstance]

end Testbenches

section Names

variable {o : FileOptions} {m : Module}

theorem no_slash_of_isModuleName {name : Text} (h : isModuleName name = true) : '/' ∉ name :=
  fun hm => absurd (isNameChar_of_mem h _ hm) (by decide)

theorem isFileName_fileNamed {name : Text} (h : isModuleName name = true) :
    (o.fileNamed name).IsFileName :=
  isFileName_of_no_slash o (ne_nil_of_isIdentifier (isIdentifier_of_isModuleName h))
    (no_slash_of_isModuleName h)

theorem isModuleName_testbenchName (h : isModuleName m.name = true) :
    isModuleName (FileOptions.testbenchName m) = true := by
  have hall := isNameChar_of_mem h
  show (isNameStart 't' && ("b_".toList ++ m.name).all isNameChar) = true
  rw [List.all_append, List.all_eq_true.2 hall]
  decide

theorem ofPath?_moduleFileName (hm : m.WellFormed) (d : Path) :
    Language.ofPath? (d.join (o.moduleFileName m)) = some o.language :=
  ofPath?_join_fileNamed o m.name_trimmed.1 (no_slash_of_isModuleName hm.name) d

theorem moduleFileName_ne_testbenchFileName :
    o.moduleFileName m ≠ o.testbenchFileName m := by
  intro h
  have hlength := congrArg List.length h
  have htb : "tb_".toList.length = 3 := rfl
  simp only [FileOptions.moduleFileName, FileOptions.testbenchFileName, FileOptions.fileNamed,
    FileOptions.testbenchName, List.length_append, htb] at hlength
  omega

end Names

section Sample

/-- A request for the sample module, with its timescale, guards and registers. -/
def sampleRequest (addTestbench : Bool) : ModuleRequest where
  name := "input.sv".toList
  inputs := ["data$#[W-1:0][;]".toList]
  outputs := ["q#8".toList]
  parameters := ["parameters=W +[;]1".toList]
  outputReg := true
  timescale := some " 1ns /1ps".toList
  includeGuards := true
  addTestbench

def sampleArguments (force : Bool) (command : CommandLine.Command) : Arguments where
  verbose := false
  settingsFile := none
  tabWidth := none
  force
  outputDirectory := ".".toList
  command

def sampleSession : Session := { files := .empty }

end Sample

section Runs

variable {s s₁ s' : Session} {env : Environment} {args : Arguments} {r : ModuleRequest}
  {settings : Settings} {m : Module} {ts : Option Text}

/-- Writing a module comes down to writing its file and perhaps its testbench. -/
theorem execute_module (hcommand : args.command = .module r)
    (hsettings : (effectiveSettings env args : Attempt (SessionOn .sound) Settings) s
      = (.ok settings, s₁))
    (hmodule : r.toModule = .ok m) (hts : r.normalTimescale = .ok ts) :
    s.execute env args = (do
      let _ ← writeOutput args.outputDirectory args.force
        ((r.fileOptions settings ts).moduleFileName m) ((r.fileOptions settings ts).moduleFile m)
      if r.addTestbench then
        let _ ← writeOutput args.outputDirectory args.force
          ((r.fileOptions settings ts).testbenchFileName m)
          ((r.fileOptions settings ts).testbench m) : Attempt (SessionOn .sound) Unit) s₁ := by
  unfold Session.execute HdlScaffold.execute
  rw [bind_of_eq hsettings]
  simp only [hcommand]
  unfold writeModule
  rw [hmodule, hts]
  rfl

theorem isTimescale_of_normalTimescale (hts : r.normalTimescale = .ok ts) :
    ∀ t ∈ ts, t.IsTimescale := by
  intro t ht
  unfold ModuleRequest.normalTimescale at hts
  split at hts
  · rw [← Except.ok.inj hts] at ht
    simp at ht
  · split at hts
    · rename_i raw _ u hu
      rw [← Except.ok.inj hts] at ht
      rw [← Option.some.inj ht]
      exact isTimescale_of_unitAndPrecision? hu
    · simp at hts

/-- A module that is written can be read from its file. -/
theorem Session.readSource_execute_module {file : Path} (hcommand : args.command = .module r)
    (hbench : r.addTestbench = false)
    (hsettings : (effectiveSettings env args : Attempt (SessionOn .sound) Settings) s
      = (.ok settings, s₁))
    (hmodule : r.toModule = .ok m) (hts : r.normalTimescale = .ok ts) (hm : m.WellFormed)
    (hdirectory : s.files.isDirectory args.outputDirectory = true)
    (hfile : file = args.outputDirectory.join ((r.fileOptions settings ts).moduleFileName m))
    (hfree : s.files.exists? file = false ∨ s.files.isFile file = true ∧ args.force = true) :
    ∃ s' f, s.execute env args = (.ok (), s') ∧
      ((readSource file : SessionOn .sound (Except Error (Option SourceFile))) s').1 = .ok (some f) ∧
      f.language = r.language ∧ f.timescale = ts ∧ f.module.outline = m.outline := by
  subst hfile
  have hname : ((r.fileOptions settings ts).moduleFileName m).IsFileName :=
    isFileName_fileNamed hm.name
  obtain ⟨l, hl⟩ := FileTree.exists_holds_of_isDirectory hdirectory
  have hget : s.files.get? (l ++ [(r.fileOptions settings ts).moduleFileName m]) ≠ some .directory ∧
      (s.files.get? (l ++ [(r.fileOptions settings ts).moduleFileName m]) = none ∨
        args.force = true) := by
    rcases hfree with hfree | ⟨hisFile, hforce⟩
    · rw [hl.exists?_join hname] at hfree
      have hnone := Option.isSome_eq_false_iff.1 hfree
      rw [Option.isNone_iff_eq_none] at hnone
      rw [hnone]
      exact ⟨by simp, Or.inl rfl⟩
    · obtain ⟨c, hc⟩ := hl.isFile_join hname hisFile
      rw [hc]
      exact ⟨by simp, Or.inr hforce⟩
  rw [← files_of_effectiveSettings hsettings] at hl hget
  obtain ⟨s', hwrite, hfiles⟩ := writeOutput_of_holds hl hname hget.1 hget.2
    ((r.fileOptions settings ts).moduleFile m)
  have hplace : s'.files.Holds args.outputDirectory l := by
    rw [hfiles]
    exact hl.put (by simp) hget.1
  have hread := hplace.read_join hname (by rw [hfiles, FileTree.get?_put _ _ _ (by simp), if_pos rfl])
  obtain ⟨f, hf, hlanguage, htimescale, houtline⟩ := SourceFile.exists_reading_moduleFile hm
    (o := r.fileOptions settings ts) (isTimescale_of_normalTimescale hts) r.language
  refine ⟨s', f, ?_, ?_, hlanguage, htimescale, houtline⟩
  · rw [execute_module hcommand hsettings hmodule hts, bind_of_eq hwrite, hbench]
    rfl
  · rw [readSource_fst (ofPath?_moduleFileName hm _) hread]
    exact hf

theorem Session.readSource_execute_module_sample : ∃ s' f,
    sampleSession.execute {} (sampleArguments false (.module (sampleRequest false)))
      = (.ok (), s') ∧
    ((readSource "./input.sv".toList : SessionOn .sound (Except Error (Option SourceFile))) s').1
      = .ok (some f) ∧
    f.language = .systemVerilog ∧ f.timescale = some "1ns/1ps".toList ∧
    f.module.outline = sampleModule.outline :=
  readSource_execute_module (r := sampleRequest false) rfl rfl rfl rfl rfl wellFormed_sampleModule
    (by decide) rfl (Or.inl (by decide))

/-- The file can be read as it was, and a file can be written at the other path. -/
def Session.Offers (t : Session) (file bench : Path) (source : Bytes) : Prop :=
  t.files.read file = .ok source ∧ (t.files.write bench []).1 = .ok ()

/-- The testbench that is made from a module's file is the one that is made with the module. -/
theorem exists_execute_testbench {t t₁ : Session} {env' : Environment} {args' : Arguments}
    {o : FileOptions} (hm : m.WellFormed) (ho : ∀ ts ∈ o.timescale, ts.IsTimescale)
    (hindent : o.indent = settings.indent) (hstrip : o.stripEndings = settings.stripEndings)
    (hoffers : t.Offers (args'.outputDirectory.join (o.moduleFileName m))
      (args'.outputDirectory.join (o.testbenchFileName m)) (o.moduleFile m).encode)
    (hcommand : args'.command = .testbench (args'.outputDirectory.join (o.moduleFileName m)))
    (hforce : args'.force = true)
    (hsettings : (effectiveSettings env' args' : Attempt (SessionOn .sound) Settings) t
      = (.ok settings, t₁)) :
    ∃ t', t.execute env' args' = (.ok (), t') ∧
      t'.files.read (args'.outputDirectory.join (o.testbenchFileName m))
        = .ok (o.testbench m).encode := by
  have hname : (o.testbenchFileName m).IsFileName :=
    isFileName_fileNamed (isModuleName_testbenchName hm.name)
  have hfiles := files_of_effectiveSettings hsettings
  obtain ⟨hread, hwrite⟩ := hoffers
  rw [← hfiles] at hread hwrite
  obtain ⟨f, hf, hlanguage, htimescale, houtline⟩ :=
    SourceFile.exists_reading_moduleFile hm ho o.language
  obtain ⟨t₂, hsource, hfiles₂⟩ := exists_requireSource (ofPath?_moduleFileName hm _) hread hf
  rw [← hfiles₂] at hwrite
  obtain ⟨l, hl, hfree⟩ := FileTree.exists_holds_of_write hname hwrite
  obtain ⟨t', hdone, hfiles'⟩ :=
    writeOutput_of_holds hl hname hfree (Or.inr hforce) (o.testbench m)
  have hsame : ({ settings.fileOptions with language := f.language, timescale := f.timescale } :
      FileOptions).testbench f.module = o.testbench m :=
    FileOptions.testbench_eq hlanguage htimescale hindent.symm hstrip.symm houtline
  have hsameName : ({ settings.fileOptions with language := f.language, timescale := f.timescale } :
      FileOptions).testbenchFileName f.module = o.testbenchFileName m := by
    have hmodule : f.module.name = m.name := (Prod.mk.inj houtline).1
    simp only [FileOptions.testbenchFileName, FileOptions.fileNamed, FileOptions.testbenchName,
      hmodule, hlanguage]
  refine ⟨t', ?_, ?_⟩
  · unfold Session.execute HdlScaffold.execute
    rw [bind_of_eq hsettings]
    simp only [hcommand]
    unfold writeTestbench
    rw [bind_of_eq hsource, hsame, hsameName, bind_of_eq hdone]
    rfl
  · have hplace : t'.files.Holds args'.outputDirectory l := by
      rw [hfiles']
      exact hl.put (by simp) hfree
    exact hplace.read_join hname (by rw [hfiles', FileTree.get?_put _ _ _ (by simp), if_pos rfl])

/-- After a module was written with its testbench, both files are there. -/
theorem files_of_execute_module (hcommand : args.command = .module r) (hbench : r.addTestbench = true)
    (hsettings : (effectiveSettings env args : Attempt (SessionOn .sound) Settings) s
      = (.ok settings, s₁))
    (hmodule : r.toModule = .ok m) (hts : r.normalTimescale = .ok ts) (hm : m.WellFormed)
    (hrun : s.execute env args = (.ok (), s')) {o : FileOptions}
    (ho : o = r.fileOptions settings ts) :
    s'.Offers (args.outputDirectory.join (o.moduleFileName m))
        (args.outputDirectory.join (o.testbenchFileName m)) (o.moduleFile m).encode ∧
      s'.files.read (args.outputDirectory.join (o.testbenchFileName m))
        = .ok (o.testbench m).encode := by
  have hname : (o.moduleFileName m).IsFileName := isFileName_fileNamed hm.name
  have hbenchName : (o.testbenchFileName m).IsFileName :=
    isFileName_fileNamed (isModuleName_testbenchName hm.name)
  rw [execute_module hcommand hsettings hmodule hts, ← ho] at hrun
  obtain ⟨_, s₂, hwrite, hrun⟩ := exists_of_bind hrun
  rw [hbench, if_pos rfl] at hrun
  obtain ⟨_, s₃, hwriteBench, hrun⟩ := exists_of_bind hrun
  obtain rfl : s₃ = s' := (Prod.mk.inj hrun).2
  obtain ⟨l, hl, hfree, hfiles⟩ := exists_of_writeOutput hname hwrite
  obtain ⟨k, hk, hfreeBench, hfilesBench⟩ := exists_of_writeOutput hbenchName hwriteBench
  have hl₂ : s₂.files.Holds args.outputDirectory l := by
    rw [hfiles]
    exact hl.put (by simp) hfree
  obtain rfl : l = k := Except.ok.inj (hl₂.walk_eq.symm.trans hk.walk_eq)
  have hl₃ : s₃.files.Holds args.outputDirectory l := by
    rw [hfilesBench]
    exact hl₂.put (by simp) hfreeBench
  have hother : l ++ [o.moduleFileName m] ≠ l ++ [o.testbenchFileName m] := by
    simpa using moduleFileName_ne_testbenchFileName
  have hgetBench : s₃.files.get? (l ++ [o.testbenchFileName m])
      = some (.file (o.testbench m).encode) := by
    rw [hfilesBench, FileTree.get?_put _ _ _ (by simp), if_pos rfl]
  have hget : s₃.files.get? (l ++ [o.moduleFileName m]) = some (.file (o.moduleFile m).encode) := by
    rw [hfilesBench, FileTree.get?_put _ _ _ (by simp), if_neg hother, hfiles,
      FileTree.get?_put _ _ _ (by simp), if_pos rfl]
  refine ⟨⟨hl₃.read_join hname hget, ?_⟩, hl₃.read_join hbenchName hgetBench⟩
  rw [hl₃.write_join hbenchName (by rw [hgetBench]; simp)]

/-- The testbench written with a module is the one that is written later from the module's file, in
any session that still has the file, and so in the one that the first run leaves. -/
theorem Session.execute_testbench_of_execute_module {o : FileOptions} {file bench : Path}
    (hcommand : args.command = .module r) (hbench : r.addTestbench = true)
    (hsettings : (effectiveSettings env args : Attempt (SessionOn .sound) Settings) s
      = (.ok settings, s₁))
    (hmodule : r.toModule = .ok m) (hts : r.normalTimescale = .ok ts) (hm : m.WellFormed)
    (hrun : s.execute env args = (.ok (), s')) (ho : o = r.fileOptions settings ts)
    (hfile : file = args.outputDirectory.join (o.moduleFileName m))
    (hbenchFile : bench = args.outputDirectory.join (o.testbenchFileName m)) :
    ∃ source contents, s'.Offers file bench source ∧ s'.files.read bench = .ok contents ∧
      ∀ (t t₁ : Session) (env' : Environment) (args' : Arguments), t.Offers file bench source →
        args'.command = .testbench file → args'.force = true →
        args'.outputDirectory = args.outputDirectory →
        (effectiveSettings env' args' : Attempt (SessionOn .sound) Settings) t = (.ok settings, t₁) →
        ∃ t', t.execute env' args' = (.ok (), t') ∧ t'.files.read bench = .ok contents := by
  obtain ⟨hoffers, hread⟩ :=
    files_of_execute_module hcommand hbench hsettings hmodule hts hm hrun ho
  subst hfile hbenchFile
  refine ⟨_, _, hoffers, hread, ?_⟩
  intro t t₁ env' args' hoffers' hcommand' hforce hdirectory hsettings'
  have htimescales : ∀ t ∈ o.timescale, t.IsTimescale := by
    rw [ho]
    exact isTimescale_of_normalTimescale hts
  rw [← hdirectory] at hoffers' hcommand' ⊢
  exact exists_execute_testbench hm htimescales (by rw [ho]; rfl) (by rw [ho]; rfl) hoffers' hcommand'
    hforce hsettings'

theorem Session.execute_testbench_of_execute_module_sample : ∃ s' t' contents,
    sampleSession.execute {} (sampleArguments false (.module (sampleRequest true))) = (.ok (), s') ∧
    s'.files.read "./tb_input.sv".toList = .ok contents ∧
    s'.execute {} (sampleArguments true (.testbench "./input.sv".toList)) = (.ok (), t') ∧
    t'.files.read "./tb_input.sv".toList = .ok contents := by
  have hrun : sampleSession.execute {} (sampleArguments false (.module (sampleRequest true)))
      = (.ok (), (sampleSession.execute {}
          (sampleArguments false (.module (sampleRequest true)))).2) := rfl
  obtain ⟨source, contents, hoffers, hread, hlater⟩ :=
    execute_testbench_of_execute_module (r := sampleRequest true) rfl rfl rfl rfl rfl
      wellFormed_sampleModule hrun rfl rfl rfl
  obtain ⟨t', ht, hread'⟩ := hlater _ _ {} (sampleArguments true (.testbench "./input.sv".toList))
    hoffers rfl rfl rfl rfl
  exact ⟨_, t', contents, hrun, hread, ht, hread'⟩

end Runs

end HdlScaffold
