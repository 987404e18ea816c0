import Congine.Common.Loop
import Congine.Kernel.Models
import Mathlib.Data.List.Sort
import Mathlib.Data.String.Basic
/-!
# The file contract repository

Contracts read from a directory, the JSON files before the YAML ones, each
kind in path order and within the file cap. What the file system holds,
what memory there is and what the two parsers make of a text are inputs. A
file that cannot be read, is too large, or fails with its parser's own
decoding error is skipped; the handlers name no other error, and text that
is not UTF-8 is one of those that end the whole fetch, as is a byte limit
the read does not take. The log is left out.
-/

namespace Congine

/-- `contracts_dir` and its two bounds. -/
structure FileContractRepository where
  contractsDir : String
  maxContractFiles : ℤ := 1000
  maxFileBytes : ℤ := 1048576

/-- What `yaml.safe_load` raises: one of its own errors, or another. -/
inductive YamlFailure where
  | yamlError (name : String)
  | raised (exc : Exc)

/-- What stands under the directory, and the parsers there are. -/
structure ContractsHost where
  isDir : Bool
  /-- The paths `glob` finds, in the order it finds them. -/
  jsonPaths : List String
  ymlPaths : List String
  yamlPaths : List String
  /-- The `OSError` that opening a file raises, or what there is to read: its
  content, or the `OSError` that reading it raises. -/
  openFile : String → Except String (Except String (List UInt8))
  /-- A buffer of that many bytes can be had. -/
  allocates : ℕ → Bool
  jsonLoads : String → Except Exc Json
  /-- `yaml.safe_load`, where PyYAML is importable. -/
  yamlSafeLoad : Option (String → Except YamlFailure Json)

namespace FileContractRepository

variable (repo : FileContractRepository) (host : ContractsHost)

/-- `xs[:stop]`. -/
def sliceTo {α : Type} (stop : ℤ) (xs : List α) : List α :=
  if 0 ≤ stop then xs.take stop.toNat else xs.take (xs.length - (-stop).toNat)

def sortedPaths (paths : List String) : List String := paths.insertionSort (· ≤ ·)

def jsonFiles : List String := sliceTo repo.maxContractFiles (sortedPaths host.jsonPaths)

/-- The YAML files have what the JSON files leave of the cap. -/
def yamlFiles : List String :=
  sliceTo (max 0 (repo.maxContractFiles - (repo.jsonFiles host).length))
    (sortedPaths (host.ymlPaths ++ host.yamlPaths))

/-- What `fh.read(n)` raises before it reads: only -1 stands for the whole
file, and a buffer is made for any other size first. -/
def readRefused (n : ℤ) : Option Exc :=
  if n < -2 ^ 63 ∨ 2 ^ 63 ≤ n then some (.other "OverflowError")
  else if n < -1 then some .valueError
  else if 0 < n ∧ !host.allocates n.toNat then some .memoryError
  else none

/-- `fh.read(n)`. -/
def fhRead (file : Except String (List UInt8)) (n : ℤ) : Except Exc (List UInt8) :=
  match readRefused host n with
  | some exc => .error exc
  | none =>
      -- No byte is asked for, and none is read.
      if n = 0 then .ok []
      else
        match file with
        | .error name => .error (.osError name)
        | .ok content => .ok (if n < 0 then content else content.take n.toNat)

/-- What `_read_json_file` and `_read_yaml_file` hand to their parser. -/
def readText (path : String) : Except Exc String :=
  match host.openFile path with
  | .error name => .error (.osError name)
  | .ok file =>
      (fhRead host file (repo.maxFileBytes + 1)).bind fun raw =>
        if repo.maxFileBytes < raw.length then .error (.osError "OSError")
        else
          match String.fromUTF8? raw.toByteArray with
          | some text => .ok text
          | none => .error .unicodeDecodeError

/-- `_read_json_file`. -/
def readJsonFile (path : String) : Except Exc Json := (repo.readText host path).bind host.jsonLoads

/-- `_read_yaml_file`. -/
def readYamlFile (safeLoad : String → Except YamlFailure Json) (path : String) :
    Except YamlFailure Json :=
  match repo.readText host path with
  | .ok text => safeLoad text
  | .error exc => .error (.raised exc)

/-- `_extract`: an envelope of contracts, one contract, or a list of them. -/
def extract (payload : Json) : List Json :=
  match payload with
  | .obj fields =>
      match fields.lookup "contracts" with
      | some (.arr inner) => inner.filter Json.isObj
      | _ => if payload.has "id" && payload.has "schema" then [payload] else []
  | .arr contracts => contracts.filter Json.isObj
  | _ => []

/-- What `except (OSError, json.JSONDecodeError)` lets through. -/
def escapesJson (exc : Exc) : Option Exc :=
  if exc.isOSError ∨ exc = .jsonDecodeError then none else some exc

/-- What `except (OSError, yaml.YAMLError)` lets through. -/
def escapesYaml : YamlFailure → Option Exc
  | .yamlError _ => none
  | .raised exc => if exc.isOSError then none else some exc

/-- The body of either loop: a file that fails as the handler expects is
skipped. -/
def contractsOrSkip {ε : Type} (escapes : ε → Option Exc) (payload : Except ε Json) :
    Except Exc (List Json) :=
  match payload with
  | .ok payload => .ok (extract payload)
  | .error failure =>
      match escapes failure with
      | none => .ok []
      | some exc => .error exc

/-- `fetch_active_contracts`. -/
def fetchActiveContracts : Except Exc (List Json) :=
  if repo.contractsDir = "" ∨ !host.isDir then .ok []
  else
    (collect (fun path => contractsOrSkip escapesJson (repo.readJsonFile host path))
      (repo.jsonFiles host)).bind fun contracts =>
        match host.yamlSafeLoad with
        | none => .ok contracts
        | some safeLoad =>
            (collect
              (fun path => contractsOrSkip escapesYaml (repo.readYamlFile host safeLoad path))
              (repo.yamlFiles host)).map (contracts ++ ·)

/-! ## What the files hold -/

/-- The contracts of a file that reads and parses, and none of another. -/
def contractsOfFile {ε : Type} (payload : Except ε Json) : List Json :=
  match payload with
  | .ok payload => extract payload
  | .error _ => []

/-- Every contract of the files that read and parse, in order. -/
def delivered : List Json :=
  if repo.contractsDir = "" ∨ !host.isDir then []
  else
    ((repo.jsonFiles host).flatMap fun path => contractsOfFile (repo.readJsonFile host path)) ++
      match host.yamlSafeLoad with
      | none => []
      | some safeLoad => (repo.yamlFiles host).flatMap fun path =>
          contractsOfFile (repo.readYamlFile host safeLoad path)

/-- Where the file opens, the read takes the limit, and content within it is
UTF-8, and a text on which the parser raises what its handler names. -/
def FailsQuietly (caught : String → Prop) (path : String) : Prop :=
  ∀ file, host.openFile path = .ok file →
    readRefused host (repo.maxFileBytes + 1) = none ∧
      ∀ content, file = .ok content → content.length ≤ repo.maxFileBytes →
        ∃ text, String.fromUTF8? content.toByteArray = some text ∧ caught text

/-- The JSON parser raises `JSONDecodeError`, if anything. -/
def JsonCaught (text : String) : Prop :=
  ∀ exc, host.jsonLoads text = .error exc → escapesJson exc = none

/-- The YAML parser raises `YAMLError`, if anything. -/
def YamlCaught (safeLoad : String → Except YamlFailure Json) (text : String) : Prop :=
  ∀ failure, safeLoad text = .error failure → escapesYaml failure = none

variable {repo host} {path : String}

/-- What the read refuses no handler catches. -/
theorem escapes_of_readRefused {n : ℤ} {exc : Exc} (h : readRefused host n = some exc) :
    escapesJson exc = some exc ∧ escapesYaml (.raised exc) = some exc := by
  unfold readRefused at h
  split_ifs at h
  all_goals
    obtain rfl := Option.some.inj h
    decide

theorem readText_refused {file : Except String (List UInt8)} {exc : Exc}
    (hopen : host.openFile path = .ok file)
    (h : readRefused host (repo.maxFileBytes + 1) = some exc) :
    repo.readText host path = .error exc := by
  simp only [readText, hopen, fhRead, h, Except.bind]

/-- What reading a file for its parser ends in, where the read takes the
limit. -/
theorem readText_cases {file : Except String (List UInt8)}
    (hopen : host.openFile path = .ok file)
    (htaken : readRefused host (repo.maxFileBytes + 1) = none) :
    (∃ name, repo.readText host path = .error (.osError name) ∧
        ∀ content, file = .ok content → repo.maxFileBytes < content.length) ∨
      ∃ content, file = .ok content ∧ content.length ≤ repo.maxFileBytes ∧
        repo.readText host path =
          match String.fromUTF8? content.toByteArray with
          | some text => .ok text
          | none => .error .unicodeDecodeError := by
  simp only [readText, hopen, fhRead, htaken]
  by_cases hzero : repo.maxFileBytes + 1 = 0
  · left
    refine ⟨"OSError", ?_, fun content _ => by omega⟩
    rw [if_pos hzero, Except.bind, if_pos]
    simp only [List.length_nil]
    omega
  rw [if_neg hzero]
  rcases file with name | content
  · exact Or.inl ⟨name, rfl, fun content h => by cases h⟩
  · rcases lt_or_ge repo.maxFileBytes (content.length : ℤ) with hlt | hle
    · left
      refine ⟨"OSError", ?_, fun content' h => Except.ok.inj h ▸ hlt⟩
      simp only [Except.bind]
      rw [if_pos]
      split_ifs
      · exact hlt
      · rw [List.length_take]
        omega
    · right
      have htake : content.take (repo.maxFileBytes + 1).toNat = content :=
        List.take_of_length_le (by omega)
      refine ⟨content, rfl, hle, ?_⟩
      simp only [htake, ite_self, Except.bind]
      rw [if_neg (by omega)]

/-- A body returns where the handler catches what it meets, and then with
the contracts of the file. -/
theorem contractsOrSkip_returns_iff {ε : Type} {escapes : ε → Option Exc}
    {payload : Except ε Json} :
    (Returns (contractsOrSkip escapes payload) ↔
        ∀ failure, payload = .error failure → escapes failure = none) ∧
      (Returns (contractsOrSkip escapes payload) →
        contractsOrSkip escapes payload = .ok (contractsOfFile payload)) := by
  rcases payload with failure | payload
  · rcases hescapes : escapes failure with _ | exc
    · simp [contractsOrSkip, contractsOfFile, hescapes]
    · simp [contractsOrSkip, hescapes]
  · simp [contractsOrSkip, contractsOfFile]

/-- Of a file that opens. -/
theorem failsQuietly_iff {caught : String → Prop} {file : Except String (List UInt8)}
    (hopen : host.openFile path = .ok file) :
    FailsQuietly repo host caught path ↔
      readRefused host (repo.maxFileBytes + 1) = none ∧
        ∀ content, file = .ok content → content.length ≤ repo.maxFileBytes →
          ∃ text, String.fromUTF8? content.toByteArray = some text ∧ caught text := by
  constructor
  · exact fun h => h file hopen
  · intro h file' hopen'
    rwa [← Except.ok.inj (hopen.symm.trans hopen')]

/-- **A file fails quietly** exactly where what a loop body meets of it is
caught. -/
theorem quiet_iff {ε : Type} {escapes : ε → Option Exc} {payload : Except ε Json}
    {caught : String → Prop} (raised : Exc → ε)
    (htext : ∀ text, repo.readText host path = .ok text →
      ((∀ failure, payload = .error failure → escapes failure = none) ↔ caught text))
    (hraised : ∀ exc, repo.readText host path = .error exc → payload = .error (raised exc))
    (hos : ∀ name, escapes (raised (.osError name)) = none)
    (hdecode : escapes (raised .unicodeDecodeError) ≠ none)
    (hrefused : ∀ exc, readRefused host (repo.maxFileBytes + 1) = some exc →
      escapes (raised exc) ≠ none) :
    (∀ failure, payload = .error failure → escapes failure = none) ↔
      FailsQuietly repo host caught path := by
  have herror : ∀ exc, repo.readText host path = .error exc →
      ((∀ failure, payload = .error failure → escapes failure = none) ↔
        escapes (raised exc) = none) := by
    intro exc hexc
    rw [hraised exc hexc]
    exact ⟨fun h => h _ rfl, fun h failure heq => Except.error.inj heq ▸ h⟩
  rcases hopen : host.openFile path with name | file
  · rw [herror (.osError name) (by simp only [readText, hopen])]
    exact iff_of_true (hos name) fun file h => by
      rw [hopen] at h
      cases h
  rw [failsQuietly_iff hopen]
  rcases htaken : readRefused host (repo.maxFileBytes + 1) with _ | exc
  · simp only [true_and]
    rcases readText_cases hopen htaken with ⟨name, hread, hlarge⟩ | ⟨content, rfl, hle, hread⟩
    · rw [herror _ hread]
      exact iff_of_true (hos name) fun content hfile hle =>
        absurd (hlarge content hfile) (not_lt.mpr hle)
    · rcases hutf8 : String.fromUTF8? content.toByteArray with _ | text
      · rw [hutf8] at hread
        rw [herror _ hread]
        refine iff_of_false hdecode fun h => ?_
        obtain ⟨text, htext, -⟩ := h content rfl hle
        rw [hutf8] at htext
        cases htext
      · rw [hutf8] at hread
        rw [htext text hread]
        constructor
        · intro hcaught content' hfile _
          obtain rfl := Except.ok.inj hfile
          exact ⟨text, hutf8, hcaught⟩
        · intro h
          obtain ⟨text', htext', hcaught⟩ := h content rfl hle
          obtain rfl := Option.some.inj (hutf8.symm.trans htext')
          exact hcaught
  · rw [herror exc (readText_refused hopen htaken)]
    exact iff_of_false (hrefused exc htaken) (by simp)

theorem readJsonFile_quiet_iff :
    (∀ exc, repo.readJsonFile host path = .error exc → escapesJson exc = none) ↔
      FailsQuietly repo host (JsonCaught host) path := by
  refine quiet_iff id (fun text htext => ?_) (fun exc hexc => ?_)
    (fun name => rfl) (by decide) fun exc hexc => ?_
  · simp only [readJsonFile, htext, Except.bind, JsonCaught]
  · simp only [readJsonFile, hexc, Except.bind, id]
  · simp [(escapes_of_readRefused hexc).1]

theorem readYamlFile_quiet_iff {safeLoad : String → Except YamlFailure Json} :
    (∀ failure, repo.readYamlFile host safeLoad path = .error failure →
        escapesYaml failure = none) ↔
      FailsQuietly repo host (YamlCaught safeLoad) path := by
  refine quiet_iff .raised (fun text htext => ?_) (fun exc hexc => ?_)
    (fun name => rfl) (by decide) fun exc hexc => ?_
  · simp only [readYamlFile, htext, YamlCaught]
  · simp only [readYamlFile, hexc]
  · simp [(escapes_of_readRefused hexc).2]

/-! ## The fetch -/

/-- Every file within the cap fails quietly, if it fails. -/
def AllFailQuietly (repo : FileContractRepository) (host : ContractsHost) : Prop :=
  (∀ path ∈ repo.jsonFiles host, FailsQuietly repo host (JsonCaught host) path) ∧
    ∀ safeLoad, host.yamlSafeLoad = some safeLoad →
      ∀ path ∈ repo.yamlFiles host, FailsQuietly repo host (YamlCaught safeLoad) path

/-- A loop delivers what its files hold where each fails quietly, and raises
otherwise. -/
theorem collect_contracts {ε : Type} (escapes : ε → Option Exc) (read : String → Except ε Json)
    (paths : List String) :
    ((∀ path ∈ paths, ∀ failure, read path = .error failure → escapes failure = none) ∧
        collect (fun path => contractsOrSkip escapes (read path)) paths =
          .ok (paths.flatMap fun path => contractsOfFile (read path))) ∨
      (¬ (∀ path ∈ paths, ∀ failure, read path = .error failure → escapes failure = none) ∧
        ∃ exc, collect (fun path => contractsOrSkip escapes (read path)) paths = .error exc) := by
  have hquiet : (∀ path ∈ paths, Returns (contractsOrSkip escapes (read path))) ↔
      ∀ path ∈ paths, ∀ failure, read path = .error failure → escapes failure = none :=
    forall_congr' fun path => forall_congr' fun _ => contractsOrSkip_returns_iff.1
  rw [← hquiet]
  by_cases h : ∀ path ∈ paths, Returns (contractsOrSkip escapes (read path))
  · exact Or.inl ⟨h, (collect_eq_ok_flatMap_iff fun _ _ => contractsOrSkip_returns_iff.2).mpr h⟩
  · right
    refine ⟨h, ?_⟩
    rcases hcollect : collect (fun path => contractsOrSkip escapes (read path)) paths with exc | ys
    · exact ⟨exc, rfl⟩
    · exact absurd (collect_returns_iff.mp ⟨ys, hcollect⟩) h

/-- **When one bad file hides no other**: the fetch returns what the files
that read and parse hold exactly where every other file within the cap
fails as its handler expects. -/
theorem fetchActiveContracts_eq_delivered_iff (repo : FileContractRepository)
    (host : ContractsHost) :
    repo.fetchActiveContracts host = .ok (repo.delivered host) ↔
      (repo.contractsDir ≠ "" → host.isDir = true → AllFailQuietly repo host) := by
  unfold fetchActiveContracts delivered
  by_cases habsent : repo.contractsDir = "" ∨ (!host.isDir) = true
  · rw [if_pos habsent, if_pos habsent]
    rcases habsent with hempty | hdir
    · simp [hempty]
    · have hdir : host.isDir = false := by simpa using hdir
      simp [hdir]
  · have hpresent : repo.contractsDir ≠ "" ∧ host.isDir = true := by simpa using habsent
    rw [if_neg habsent, if_neg habsent, forall_prop_of_true hpresent.1,
      forall_prop_of_true hpresent.2]
    simp only [AllFailQuietly, ← readJsonFile_quiet_iff, ← readYamlFile_quiet_iff]
    rcases collect_contracts escapesJson (repo.readJsonFile host) (repo.jsonFiles host) with
      ⟨hjson, hcollect⟩ | ⟨hjson, exc, hcollect⟩
    · rw [hcollect]
      rcases host.yamlSafeLoad with _ | safeLoad
      · simpa [Except.bind] using hjson
      · rcases collect_contracts escapesYaml (repo.readYamlFile host safeLoad)
          (repo.yamlFiles host) with ⟨hyaml, hcollect'⟩ | ⟨hyaml, exc, hcollect'⟩
        · simp only [Except.bind, hcollect', Except.map, true_iff, Option.some.injEq]
          exact ⟨hjson, fun _ heq => heq ▸ hyaml⟩
        · simp only [Except.bind, hcollect', Except.map, reduceCtorEq, false_iff]
          exact fun hall => hyaml (hall.2 safeLoad rfl)
    · rw [hcollect]
      simp only [Except.bind, reduceCtorEq, false_iff]
      exact fun hall => hjson hall.1

/-- A contract as `json.loads` reads it. -/
def sampleContract : Json := .obj [("id", .str "b"), ("schema", .obj [])]

/-- Two files, the first of them two bytes that are no UTF-8. -/
def undecodableFirst : ContractsHost where
  isDir := true
  jsonPaths := ["dir/b.json", "dir/a.json"]
  ymlPaths := []
  yamlPaths := []
  openFile path :=
    if path = "dir/a.json" then .ok (.ok [0xff, 0xfe]) else .ok (.ok "[]".toUTF8.toList)
  allocates size := size ≤ 2 ^ 30
  jsonLoads text := if text = "[]" then .ok (.arr [sampleContract]) else .error .jsonDecodeError
  yamlSafeLoad := none

/-- **A file that is no UTF-8 ends the fetch**, and the contract of the
other one is lost. -/
theorem fetchActiveContracts_raises :
    let repo : FileContractRepository := { contractsDir := "dir" }
    repo.fetchActiveContracts undecodableFirst = .error .unicodeDecodeError ∧
      repo.delivered undecodableFirst = [sampleContract] := by
  decide +kernel

end FileContractRepository

end Congine
