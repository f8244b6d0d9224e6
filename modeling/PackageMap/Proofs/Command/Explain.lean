import PackageMap.Command.Run
import PackageMap.Proofs.FinalMap
import PackageMap.Proofs.Walk.Edges

/-!
# Specifiers of a map, resolved one by one

The map of a package is walked with the configuration of its project, and a single specifier is
resolved with that of the project around its file. Where both have the same conventions, the answer
is what the walk got for the specifier.
-/

namespace PackageMap.Command

open Resolve

variable {t : Tree} {project : Project} {package key spec : String} {r : FileRecord}

/-! ## Questions and answers -/

/-- The map of a package of a project. -/
def Project.find (t : Tree) (project : Project) (package : String) : FindResult :=
  findPackage t { config := project.config } project.root (installedManifests t project.root)
    package

/-- The walk of a package of a project gets this in one of its turns. -/
def Project.Gets (t : Tree) (project : Project) (package : String) (e : Edge) : Prop :=
  ∃ l ∈ packageLoop? t project.config project.root (installedManifests t project.root) package,
    ∃ n, e ∈ l.edges t project.config n

/-- A path on a command line, as seen from the working directory. -/
def seen (t : Tree) (cwd : Option Path) (source : Path) : Path :=
  absolutize (cwd.getD t.cwd.path) source

/-- The output tells what a specifier in a file stands for. -/
def Output.Tells (out : Output) (json : Bool) (specifier : String) (file : Path) : Outcome → Prop
  | .resolved target =>
    out.code = 0 ∧ out.stderr = [] ∧
      out.stdout = (if json then (foundJson specifier "resolved" (.string target.text)).prettyText
        else target.text) ++ "\n"
  | .ignored =>
    out.code = 0 ∧ out.stderr = [] ∧
      out.stdout = (if json then (foundJson specifier "ignored" .null).prettyText
        else "(ignored by browser map)") ++ "\n"
  | .unresolved reason =>
    out.code = 1 ∧ ∃ tried : List Path,
      if json then
        out.stderr = [] ∧ out.stdout = (missingJson specifier file reason tried).prettyText ++ "\n"
      else
        out.stdout = "" ∧
          out.stderr = ("error: cannot resolve '" ++ specifier ++ "' [" ++ reason.code ++ "]") ::
            tried.map fun p => "  tried " ++ p.text

theorem Output.stdout_ofLines (t : Tree) (line : String) :
    (Output.ofLines t [line]).stdout = line ++ "\n" := by
  unfold Output.ofLines
  simp [String.join]

/-- What is told of a specifier is what the resolver gives without a cache. -/
theorem runResolve_tells (t : Tree) (json : Bool) (c : Config) (specifier : String) (file : Path) :
    (runResolve t json c specifier file).Tells json specifier file
      (resolve t c.conventions none file specifier).1.outcome := by
  unfold runResolve
  obtain ⟨⟨o, tried⟩, cache⟩ := resolve t c.conventions none file specifier
  dsimp only
  cases o with
  | resolved target => exact ⟨rfl, rfl, by cases json <;> exact Output.stdout_ofLines t _⟩
  | ignored => exact ⟨rfl, rfl, by cases json <;> exact Output.stdout_ofLines t _⟩
  | unresolved reason =>
    cases json with
    | true => exact ⟨rfl, tried, rfl, Output.stdout_ofLines t _⟩
    | false => exact ⟨rfl, tried, rfl, rfl⟩

/-- The answer depends on the file that is named and on the configuration around its path. -/
theorem runRequest_tells {cwd : Option Path} {source file : Path} {c : Config} {o : Outcome}
    (hfile : t.canonicalOrSelf (seen t cwd source) = file)
    (hc : enclosingConfig t (seen t cwd source) = .ok c)
    (ho : (resolve t c.conventions none file spec).1.outcome = o) (tag : String) (json : Bool) :
    (runRequest t tag ⟨json, cwd, .resolve spec source⟩).Tells json spec file o := by
  unfold seen at hfile hc
  unfold runRequest
  dsimp only
  rw [hc, hfile, ← ho]
  exact runResolve_tells t json c spec file

/-! ## Files under their own paths -/

/-- A script in a map leads to itself by its path, if this can be written out. -/
theorem Project.canonicalOrSelf_seen (hg : t.Grounded)
    (hr : (key, r) ∈ (project.find t package).files) (hspec : spec ∈ r.specifiers)
    {loc : Location} (hc : t.canonical r.path = .ok loc) (cwd : Option Path) :
    t.canonicalOrSelf (seen t cwd r.path) = r.path := by
  obtain ⟨m, hreach⟩ := exists_reachable_of_mem_files hg hr hspec
  obtain ⟨-, hpath⟩ := hreach.eq_path hg hc
  have habsolute : r.path.isAbsolute = true := by
    rw [hpath]
    unfold Path.isAbsolute
    rw [Tree.toList_path]
    rfl
  unfold seen absolutize
  rw [if_pos habsolute]
  unfold Tree.canonicalOrSelf
  rw [hc]
  exact hpath.symm

/-- A specifier in the map of a package is told to stand for what the walk of the package got for
it, if the configuration around the file is read and has the conventions of the project. A file
whose path can be written out may be given by that path. -/
theorem Project.resolve_tells {t : Tree} {project : Project} {package key spec : String}
    {r : FileRecord} (hr : (key, r) ∈ (project.find t package).files)
    (hspec : spec ∈ r.specifiers) :
    ∃ o, (∀ o', project.Gets t package ⟨r.path, spec, o'⟩ ↔ o' = o) ∧
      (t.Grounded → (∃ loc, t.canonical r.path = .ok loc) →
        ∀ cwd, t.canonicalOrSelf (seen t cwd r.path) = r.path) ∧
      ∀ cwd source c, t.canonicalOrSelf (seen t cwd source) = r.path →
        enclosingConfig t (seen t cwd source) = .ok c →
        c.conventions = project.config.conventions → ∀ tag json,
        (runRequest t tag ⟨json, cwd, .resolve spec source⟩).Tells json spec r.path o := by
  refine ⟨_, fun o' => exists_mem_edges_iff hr hspec, ?_, ?_⟩
  · rintro hg ⟨loc, hc⟩ cwd
    exact canonicalOrSelf_seen hg hr hspec hc cwd
  · intro cwd source c hfile hc hconventions tag json
    exact runRequest_tells hfile hc (by rw [hconventions]) tag json

/-! ## A project without extensions -/

namespace Stripped

def proj : Location := [⟨"proj", .refl true⟩]

def above : Location := [⟨"p", .refl true⟩, ⟨"node_modules", .refl true⟩, ⟨"proj", .refl true⟩]

/-- The project's configuration drops all extensions, and its package needs one. -/
def tree : Tree where
  entries :=
    [(proj, .directory),
      (⟨"reqmap.json", .refl true⟩ :: proj,
        .file "\x7b\"resolver\":\x7b\"extensions\":[]\x7d\x7d".toUTF8),
      (⟨"node_modules", .refl true⟩ :: proj, .directory),
      (above, .directory),
      (⟨"package.json", .refl true⟩ :: above, .file "\x7b\"main\":\"a.js\"\x7d".toUTF8),
      (⟨"a.js", .refl true⟩ :: above, .file "require('./b')".toUTF8),
      (⟨"b.js", .refl true⟩ :: above, .file "".toUTF8)]
  cwd := []

/-- The script in the package. -/
def script : FileRecord := ⟨⟨"/proj/node_modules/p/a.js"⟩, "require('./b')", some ["./b"]⟩

def target : Path := ⟨"/proj/node_modules/p/b.js"⟩

/-- The project with the configuration in its file. -/
def stripped : Project := ⟨⟨"/proj"⟩, { conventions := { extensions := [] } }⟩

/-- The project with the default configuration. -/
def plain : Project := ⟨⟨"/proj"⟩, {}⟩

theorem load_stripped : Project.load tree ⟨"/"⟩ { root := some ⟨"/proj"⟩ } = .ok stripped := by
  have hread : tree.read ((Path.mk "/proj").child Config.fileName) =
      .ok "\x7b\"resolver\":\x7b\"extensions\":[]\x7d\x7d".toUTF8 := rfl
  have htext : Config.ofText? "\x7b\"resolver\":\x7b\"extensions\":[]\x7d\x7d" =
      some { conventions := { extensions := [] } } := by cbv
  have hroot : absolutize ⟨"/"⟩ ⟨"/proj"⟩ = ⟨"/proj"⟩ := rfl
  unfold Project.load Config.discover Config.load
  dsimp only
  rw [hroot, if_pos (Tree.isFile_of_read hread), hread]
  dsimp only
  rw [Text.Utf8.strict?_toUTF8]
  dsimp only
  rw [htext]
  rfl

theorem noBrowserMaps : NoBrowserMaps tree := by
  refine noBrowserMaps_of_texts ["\x7b\"resolver\":\x7b\"extensions\":[]\x7d\x7d",
    "\x7b\"main\":\"a.js\"\x7d", "require('./b')", ""] ?_ (by cbv)
  intro loc bytes h
  simp only [tree, List.mem_cons, Prod.mk.injEq, List.not_mem_nil, or_false, reduceCtorEq,
    and_false, false_or, Entry.file.injEq] at h
  rcases h with ⟨-, rfl⟩ | ⟨-, rfl⟩ | ⟨-, rfl⟩ | ⟨-, rfl⟩ <;> exact ⟨_, by decide, rfl⟩

theorem get?_manifest : (installedManifests tree ⟨"/proj"⟩).get? (packageManifest ⟨"/proj"⟩ "p") =
    some { main := "a.js" } := by
  have hread : tree.read (packageManifest ⟨"/proj"⟩ "p") =
      .ok "\x7b\"main\":\"a.js\"\x7d".toUTF8 := rfl
  have hjson : Json.ofText? "\x7b\"main\":\"a.js\"\x7d" =
      some (.object [("main", .string "a.js")]) := by cbv
  have hpaths : Installed.manifestPaths tree ⟨"/proj"⟩ = [packageManifest ⟨"/proj"⟩ "p"] := by
    decide
  exact get?_installedManifests hpaths (read_manifest_of_text hread hjson)

theorem outcome_stripped :
    (resolve tree stripped.config.conventions none script.path "./b").1.outcome =
      .unresolved .notFound := by
  decide

theorem outcome_plain :
    (resolve tree plain.config.conventions none script.path "./b").1.outcome =
      .resolved target := by
  have hfile : pathOf? tree plain.config.conventions
      (specifierPath (Resolution.directoryOf script.path) "./b") = some target := by decide
  exact Outcome.file?_eq_some_iff.1
    ((resolve_file? noBrowserMaps script.path (by decide) (by decide) (by decide)).trans hfile)

/-! Both configurations lead to the script and to no other file but the target. -/

theorem recordOf?_script (h : project = stripped ∨ project = plain) :
    recordOf? tree project.config script.path = some script := by
  have hread : tree.read script.path = .ok "require('./b')".toUTF8 := rfl
  have hscript : project.config.isScript script.path = true := by
    rcases h with rfl | rfl <;> decide
  exact PackageMap.recordOf?_script hread hscript (by cbv)

theorem eq_target_of_refers (h : project = stripped ∨ project = plain) {p q : Path}
    (hp : p = script.path ∨ p = target) (hq : Refers tree project.config p q) : q = target := by
  rcases hp with rfl | rfl
  · obtain ⟨specs, hspecs, spec, hspec, ho⟩ := (refers_iff (recordOf?_script h) q).1 hq
    cases hspecs
    obtain rfl := List.mem_singleton.1 hspec
    rcases h with rfl | rfl
    · cases outcome_stripped.symm.trans ho
    · cases outcome_plain.symm.trans ho
      rfl
  · exact (not_refers_of_empty rfl hq).elim

theorem path?_start_iff (h : project = stripped ∨ project = plain) {s : Start} {p : Path}
    (hs : s ∈ entryStarts { config := project.config } ⟨"/proj"⟩ "p" { main := "a.js" }) :
    s.path? tree project.config = some p ↔ p = script.path := by
  have hentries : ({ main := "a.js" } : Manifest).entries (packageDirectory ⟨"/proj"⟩ "p") =
      [some script.path, none, none, none] := by decide
  have hpath : pathOf? tree project.config.conventions script.path = some script.path := by
    rcases h with rfl | rfl <;> decide
  have hcanonical : tree.canonical script.path = .ok (⟨"a.js", .refl true⟩ :: above) := by decide
  have hg : tree.Grounded := fun _ => trivial
  unfold entryStarts at hs
  dsimp only at hs
  rw [hentries] at hs
  obtain rfl := List.mem_singleton.1 hs
  rw [path?_entry_iff hg noBrowserMaps, hpath]
  constructor
  · rintro ⟨⟨⟩, -⟩
    rfl
  · rintro rfl
    exact ⟨rfl, _, hcanonical⟩

theorem inside_script : tree.Inside ⟨"/proj"⟩ script.path :=
  ⟨proj, ⟨"a.js", .refl true⟩ :: above, by decide, by decide, by decide, by decide⟩

theorem inside_target : tree.Inside ⟨"/proj"⟩ target :=
  ⟨proj, ⟨"b.js", .refl true⟩ :: above, by decide, by decide, by decide, by decide⟩

theorem map_seededWalker : (seededWalker tree { config := project.config } ⟨"/proj"⟩
    (installedManifests tree ⟨"/proj"⟩) "p").map = .empty := by
  have happlies :
      tree.isFile ((packageDirectory ⟨"/proj"⟩ "p").child Seeder.buildName) = false := by decide
  unfold seededWalker
  rw [if_neg (by simpa [Seeder.reason] using happlies)]

theorem inside_of_isMapPath (h : project = stripped ∨ project = plain) {p : Path}
    (hp : IsMapPath tree { config := project.config } ⟨"/proj"⟩
      (installedManifests tree ⟨"/proj"⟩) "p" p) : tree.Inside ⟨"/proj"⟩ p := by
  obtain ⟨m, hm, hp⟩ := hp
  obtain rfl := Option.some.inj (get?_manifest.symm.trans hm)
  rw [map_seededWalker] at hp
  have heq : p = script.path ∨ p = target := by
    rcases hp with ⟨r, hr, -⟩ | hp
    · cases hr
    · induction hp with
      | start hs hp _ _ => exact .inl ((path?_start_iff h hs).1 hp)
      | target _ hq _ ih => exact .inr (eq_target_of_refers h ih hq)
  rcases heq with rfl | rfl
  · exact inside_script
  · exact inside_target

theorem mem_files (h : project = stripped ∨ project = plain) :
    ("/node_modules/p/a.js", script) ∈ (project.find tree "p").files := by
  have hroot : project.root = ⟨"/proj"⟩ := by rcases h with rfl | rfl <;> rfl
  have hany : ({ main := "a.js" } : Manifest).capabilities.any = true := by decide
  have hkey : script.path.relativize (tree.canonicalOrSelf ⟨"/proj"⟩) = "/node_modules/p/a.js" := by
    decide
  have hentry : Start.entry script.path ∈
      entryStarts { config := project.config } ⟨"/proj"⟩ "p" { main := "a.js" } := by
    rcases h with rfl | rfl
    · exact List.mem_singleton.2 rfl
    · exact List.mem_singleton.2 rfl
  have hreach : Reachable tree project.config
      (seededWalker tree { config := project.config } ⟨"/proj"⟩ (installedManifests tree ⟨"/proj"⟩)
        "p").map
      (entryStarts { config := project.config } ⟨"/proj"⟩ "p" { main := "a.js" }) script.path := by
    rw [map_seededWalker]
    exact .start hentry ((path?_start_iff h hentry).2 rfl)
      (Option.isSome_of_mem (recordOf?_script h)) rfl
  have hmem := mem_files_of_reachable (o := { config := project.config }) get?_manifest hany
    (fun _ => inside_of_isMapPath h) hreach (recordOf?_script h)
  unfold Project.find
  rw [hroot, ← hkey]
  exact hmem

theorem enclosingConfig_script :
    enclosingConfig tree (seen tree none script.path) = .ok plain.config := by
  have hroot : projectRoot? tree (script.path.parent?.getD script.path) =
      some ⟨"/proj/node_modules/p"⟩ := by decide
  have hfile : tree.isFile ((Path.mk "/proj/node_modules/p").child Config.fileName) = false := by
    decide
  have hseen : seen tree none script.path = script.path := by decide
  rw [hseen]
  unfold enclosingConfig Config.discover
  rw [hroot]
  dsimp only
  rw [hfile]
  rfl

end Stripped

open Stripped

/-- With the default configuration the specifier is told to stand for what the walk got. -/
theorem Project.resolve_tells_plain :
    ("/node_modules/p/a.js", script) ∈ (plain.find tree "p").files ∧ "./b" ∈ script.specifiers ∧
      plain.Gets tree "p" ⟨script.path, "./b", .resolved target⟩ ∧
      ∀ tag json, (runRequest tree tag ⟨json, none, .resolve "./b" script.path⟩).Tells json "./b"
        script.path (.resolved target) := by
  have hr := mem_files (.inr rfl)
  have hspec : "./b" ∈ script.specifiers := List.mem_singleton.2 rfl
  have hg : tree.Grounded := fun _ => trivial
  have hcanonical : tree.canonical script.path = .ok (⟨"a.js", .refl true⟩ :: above) := by decide
  obtain ⟨o, hgets, hself, htells⟩ := resolve_tells hr hspec
  have htarget : plain.Gets tree "p" ⟨script.path, "./b", .resolved target⟩ :=
    (exists_mem_edges_iff hr hspec).2 outcome_plain.symm
  obtain rfl := (hgets _).1 htarget
  exact ⟨hr, hspec, htarget,
    htells none script.path plain.config (hself hg ⟨_, hcanonical⟩ none) enclosingConfig_script rfl⟩

/-- The configuration around the script is that of the package, not of the project. So the specifier
is told to stand for a file where the walk got none. -/
theorem Project.resolve_tells_other :
    Project.load tree ⟨"/"⟩ { root := some ⟨"/proj"⟩ } = .ok stripped ∧
      ("/node_modules/p/a.js", script) ∈ (stripped.find tree "p").files ∧
      "./b" ∈ script.specifiers ∧
      stripped.Gets tree "p" ⟨script.path, "./b", .unresolved .notFound⟩ ∧
      ∀ tag json,
        (runRequest tree tag ⟨json, none, .resolve "./b" script.path⟩).Tells json "./b" script.path
            (.resolved target) ∧
          ¬ (runRequest tree tag ⟨json, none, .resolve "./b" script.path⟩).Tells json "./b"
            script.path (.unresolved .notFound) := by
  have hr := mem_files (.inl rfl)
  have hspec : "./b" ∈ script.specifiers := List.mem_singleton.2 rfl
  have hself : tree.canonicalOrSelf (seen tree none script.path) = script.path := by decide
  refine ⟨load_stripped, hr, hspec, (exists_mem_edges_iff hr hspec).2 outcome_stripped.symm,
    fun tag json => ?_⟩
  have htells := runRequest_tells hself enclosingConfig_script outcome_plain tag json
  refine ⟨htells, ?_⟩
  rintro ⟨hcode, -⟩
  rw [htells.1] at hcode
  cases hcode

end PackageMap.Command
