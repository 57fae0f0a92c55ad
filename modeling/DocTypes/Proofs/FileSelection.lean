import DocTypes.Cli.Run

namespace DocTypes

namespace FileMap

/-- The names of the files that rules for leaving out files are read from, in their directory. -/
def ruleNames : List Path :=
  [[".ignore"], [".gitignore"], [".git", "info", "exclude"]]

/-- Whether a path is one that rules for leaving out files are read from. -/
def isRuleFile (path : Path) : Bool :=
  ruleNames.any (·.isSuffixOf path)

/-- Two trees of the same names, with the same texts in the files that hold rules. Other texts may differ. -/
structure SameRules (isRule : Path → Bool) (files now : FileMap) : Prop where
  dirs : now.dirs = files.dirs
  names : now.entries.map Prod.fst = files.entries.map Prod.fst
  rules : ∀ path, isRule path → now.read? path = files.read? path

namespace SameRules

variable {files now : FileMap} {isRule : Path → Bool}

theorem isFile (same : SameRules isRule files now) : now.isFile = files.isFile := by
  funext path
  have any_names (tree : FileMap) : tree.isFile path = (tree.entries.map Prod.fst).any (· == path) := by
    rw [List.any_map]
    rfl
  rw [any_names, any_names, same.names]

theorem isDir (same : SameRules isRule files now) : now.isDir = files.isDir := by
  funext path
  have any_names (tree : FileMap) : tree.isDir path = (path.isEmpty || tree.dirs.any (path.isPrefixOf ·) ||
      (tree.entries.map Prod.fst).any fun name => path.isPrefixOf name && path != name) := by
    rw [List.any_map]
    rfl
  rw [any_names, any_names, same.names, same.dirs]

theorem holds (same : SameRules isRule files now) : now.holds = files.holds := by
  funext path
  rw [FileMap.holds, FileMap.holds, same.isFile, same.isDir]

theorem follow? (same : SameRules isRule files now) (start path : Path) :
    now.follow? start path = files.follow? start path := by
  induction path generalizing start with
  | nil => rw [FileMap.follow?, FileMap.follow?, same.holds]
  | cons name names ih => simp only [FileMap.follow?, same.isDir, ih]

theorem resolve? (same : SameRules isRule files now) (start : Path) (text : String) :
    now.resolve? start text = files.resolve? start text := by
  rw [FileMap.resolve?, FileMap.resolve?, same.follow?, same.isDir]

theorem rulesIn (same : SameRules isRuleFile files now) (dir : Path) {name : Path} (isRules : name ∈ ruleNames) :
    now.rulesIn dir name = files.rulesIn dir name := by
  have isRule : isRuleFile (dir ++ name) :=
    List.any_eq_true.mpr ⟨name, isRules, List.isSuffixOf_iff_suffix.mpr (List.suffix_append dir name)⟩
  rw [FileMap.rulesIn, FileMap.rulesIn, same.rules _ isRule]

theorem verdictFrom (same : SameRules isRuleFile files now) (dirs : List Path) {name : Path}
    (isRules : name ∈ ruleNames) (path : Path) (isDir : Bool) :
    now.verdictFrom dirs name path isDir = files.verdictFrom dirs name path isDir := by
  simp only [FileMap.verdictFrom, same.rulesIn _ isRules]

theorem repositoryDirs (same : SameRules isRule files now) (dirs : List Path) :
    now.repositoryDirs dirs = files.repositoryDirs dirs := by
  have isRepository : now.isRepository = files.isRepository := by
    funext dir
    rw [FileMap.isRepository, FileMap.isRepository, same.holds]
  rw [FileMap.repositoryDirs, FileMap.repositoryDirs, isRepository]

theorem ignoreVerdict (same : SameRules isRuleFile files now) (path : Path) (isDir : Bool) :
    now.ignoreVerdict path isDir = files.ignoreVerdict path isDir := by
  simp only [FileMap.ignoreVerdict, same.repositoryDirs,
    same.verdictFrom _ (show [".ignore"] ∈ ruleNames by decide),
    same.verdictFrom _ (show [".gitignore"] ∈ ruleNames by decide),
    same.verdictFrom _ (show [".git", "info", "exclude"] ∈ ruleNames by decide)]

theorem reaches (same : SameRules isRuleFile files now) (exclude : List IgnoreRule) (root : Path) :
    now.reaches exclude root = files.reaches exclude root := by
  funext below
  simp only [FileMap.reaches, FileMap.skips, same.ignoreVerdict]

theorem walk (same : SameRules isRuleFile files now) (exclude : List IgnoreRule) (root : Path) :
    now.walk exclude root = files.walk exclude root := by
  have filterMap_names (tree : FileMap) (keep : Path → Option Path) :
      tree.entries.filterMap (fun entry => keep entry.1) = (tree.entries.map Prod.fst).filterMap keep := by
    rw [List.filterMap_map]
    rfl
  rw [FileMap.walk, FileMap.walk, filterMap_names now fun name =>
    if root.isPrefixOf name && root != name then some (name.drop root.length) else none, same.names,
    ← filterMap_names, same.reaches]

end SameRules

theorem read?_write (files : FileMap) (path other : Path) (text : String) :
    (files.write path text).read? other =
      if other = path then (files.read? path).map fun _ => text else files.read? other := by
  obtain ⟨entries, dirs⟩ := files
  simp only [read?, write]
  induction entries with
  | nil => simp
  | cons entry entries ih =>
    obtain ⟨name, old⟩ := entry
    by_cases isOther : other = path
    · subst isOther
      by_cases isName : name = other
      · simp [isName]
      · have apart : (other == name) = false := beq_false_of_ne (Ne.symm isName)
        simpa [isName, List.lookup_cons, apart] using ih
    · by_cases isName : name = path
      · have apart : (other == path) = false := beq_false_of_ne isOther
        simpa [isName, List.lookup_cons, apart, isOther] using ih
      · rw [if_neg isOther] at ih ⊢
        simp only [List.map_cons, if_neg isName, List.lookup_cons, ih]

end FileMap

namespace Cli

/-- Which files a path stands for depends on the names in a tree and on the texts of the files with rules, not on
any other text. -/
def Platform.Steady (platform : Platform) (isRule : Path → Bool) : Prop :=
  ∀ config files now text, FileMap.SameRules isRule files now →
    platform.select config now text = platform.select config files text

theorem steady_platform (place : Place) : (platform place).Steady FileMap.isRuleFile := by
  intro config files now text same
  simp only [platform, targets, same.resolve?, same.isFile, same.walk]

end Cli

end DocTypes
