import HdlScaffold.Execution
import HdlScaffold.Proofs.Files

/-!
# File names and languages

A file is named after what it declares, with the extension of its language behind. So a path to the
file tells the language, and the file's name tells module and language (`nameAndLanguage_fileNamed`): a
module that is asked for by the name of its file is the same module again
(`ModuleRequest.fileNames_of_toModule`).
-/

namespace HdlScaffold

section Names

variable {o : FileOptions} {name : Text}

theorem isFileName_of_no_slash (o : FileOptions) (hne : name ≠ []) (hslash : '/' ∉ name) :
    (o.fileNamed name).IsFileName := by
  have hext : o.language.extension ≠ [] ∧ '/' ∉ o.language.extension := by
    cases o.language <;> decide
  obtain ⟨c, e, he⟩ := List.exists_cons_of_ne_nil hext.1
  have hlength : 3 ≤ (o.fileNamed name).length := by
    have := List.length_pos_iff.2 hne
    simp only [FileOptions.fileNamed, he, List.length_append, List.length_cons]
    omega
  refine ⟨?_, by simp [FileOptions.fileNamed, hslash, hext.2], ?_, ?_⟩
  all_goals
    intro heq
    rw [heq] at hlength
    simp at hlength

/-- The extension of a file tells its language, wherever the file is. -/
theorem ofPath?_join_fileNamed (o : FileOptions) (hne : name ≠ []) (hslash : '/' ∉ name) (d : Path) :
    Language.ofPath? (d.join (o.fileNamed name)) = some o.language := by
  have hdot : '.' ∉ o.language.extension := by cases o.language <;> decide
  unfold Language.ofPath?
  rw [FileOptions.fileNamed,
    Path.extension?_join hne hdot (isFileName_of_no_slash o hne hslash)]
  exact Language.ofExtension?_extension _

theorem nameAndLanguage_fileNamed (o : FileOptions) (name : Text) :
    nameAndLanguage (o.fileNamed name) false = (name, o.language) := by
  have hdot : '.' ∉ o.language.extension := by cases o.language <;> decide
  have hcut : Text.cutAtLast? '.' (o.fileNamed name) = some (name, o.language.extension) := by
    rw [FileOptions.fileNamed, List.append_assoc]
    exact Text.cutAtLast?_append name hdot
  simp only [nameAndLanguage, hcut, Language.ofExtension?_extension, Bool.false_eq_true, if_false]

end Names

namespace Module

variable {m : Module} {name : Text} {parameters : List Text} {ports : List (Direction × Text)}

theorem ofDescriptions_trim (name : Text) (parameters : List Text)
    (ports : List (Direction × Text)) :
    ofDescriptions name.trim parameters ports = ofDescriptions name parameters ports := by
  simp only [ofDescriptions, create, Text.trim_trim]

theorem name_of_ofDescriptions (h : ofDescriptions name parameters ports = .ok m) :
    m.name = name.trim := by
  obtain ⟨ps, qs, hcreate⟩ : ∃ ps qs, create name ps qs = .ok m := by
    simp only [ofDescriptions, bind, Except.bind] at h
    split at h
    · cases h
    · split at h
      · cases h
      · exact ⟨_, _, h⟩
  exact (of_create hcreate).1

end Module

namespace ModuleRequest

/-- The files of a request tell its language, and the name of the module's file asks for the same
module in the same language. -/
theorem fileNames_of_toModule {r : ModuleRequest} {m : Module} (hmodule : r.toModule = .ok m)
    (hslash : '/' ∉ m.name) (settings : Settings) (ts : Option Text) :
    let o := r.fileOptions settings ts
    (∀ root : Path, Language.ofPath? (root.join (o.moduleFileName m)) = some r.language ∧
      Language.ofPath? (root.join (o.testbenchFileName m)) = some r.language) ∧
    nameAndLanguage (o.moduleFileName m) false = (m.name, r.language) ∧
    toModule { r with name := o.moduleFileName m, systemVerilog := false } = .ok m := by
  intro o
  have hname : nameAndLanguage (o.moduleFileName m) false = (m.name, r.language) :=
    nameAndLanguage_fileNamed o m.name
  have hbench : FileOptions.testbenchName m ≠ [] ∧ '/' ∉ FileOptions.testbenchName m := by
    simp [FileOptions.testbenchName, hslash]
  refine ⟨fun root => ⟨?_, ?_⟩, hname, ?_⟩
  · exact ofPath?_join_fileNamed o m.name_trimmed.1 hslash root
  · exact ofPath?_join_fileNamed o hbench.1 hbench.2 root
  · unfold toModule at hmodule ⊢
    rw [hname, Module.name_of_ofDescriptions hmodule, Module.ofDescriptions_trim]
    exact hmodule

/-- A name made of dots and blanks, with both extensions behind it. -/
def dottedRequest : ModuleRequest where
  name := " .. .v.sv".toList
  inputs := ["clk,d#8".toList]

theorem fileNames_of_toModule_dotted : ∃ m, dottedRequest.toModule = .ok m ∧ '/' ∉ m.name ∧
    let o := dottedRequest.fileOptions {} none
    o.testbenchFileName m = "tb_.. .v.sv".toList ∧
    Language.ofPath? (Path.join "a.v/..".toList (o.testbenchFileName m)) = some .systemVerilog ∧
    nameAndLanguage (o.moduleFileName m) false = (".. .v".toList, .systemVerilog) := by
  obtain ⟨m, hm⟩ : ∃ m, dottedRequest.toModule = .ok m := by
    have hok : dottedRequest.toModule.isOk = true := by decide +kernel
    cases h : dottedRequest.toModule with
    | error e => rw [h] at hok; cases hok
    | ok m => exact ⟨m, rfl⟩
  have hname : m.name = ".. .v".toList :=
    (Module.name_of_ofDescriptions hm).trans (by decide +kernel)
  have hslash : '/' ∉ m.name := by
    rw [hname]
    decide
  have hlanguage : dottedRequest.language = .systemVerilog := by decide +kernel
  obtain ⟨hpaths, hagain, -⟩ := fileNames_of_toModule hm hslash {} none
  refine ⟨m, hm, hslash, ?_, ?_, ?_⟩
  · show "tb_".toList ++ m.name ++ ['.'] ++ dottedRequest.language.extension = _
    rw [hname, hlanguage]
    decide
  · rw [← hlanguage]
    exact (hpaths _).2
  · rw [hagain, hname, hlanguage]

end ModuleRequest

end HdlScaffold
