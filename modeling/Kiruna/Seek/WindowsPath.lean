import Mathlib.Data.List.Basic

/-!
# Paths on Windows

The parts of `std::path` that `seek` relies on, with their documented behaviour on Windows: the
prefix of a path, `is_relative`, `components` and `PathBuf::push`. A path is a list of UTF-16 units.
Every character that the parser looks for is one unit, and one byte in the encoding of `OsStr`.
-/

namespace Kiruna.Seek

/-- The units of a path. -/
abbrev OsString := List UInt16

abbrev slash : UInt16 := 47
abbrev backslash : UInt16 := 92
abbrev colon : UInt16 := 58
abbrev question : UInt16 := 63
abbrev dot : UInt16 := 46

def isSep (c : UInt16) : Bool := c == slash || c == backslash

def isVerbatimSep (c : UInt16) : Bool := c == backslash

/-- `\\?\`. -/
def verbatimStart : OsString := [backslash, backslash, question, backslash]

inductive Prefix
  | verbatim (name : OsString)
  | verbatimUNC (server share : OsString)
  | verbatimDisk (drive : UInt16)
  | deviceNS (name : OsString)
  | unc (server share : OsString)
  | disk (drive : UInt16)
  deriving DecidableEq

namespace Prefix

def len : Prefix → ℕ
  | verbatim x => 4 + x.length
  | verbatimUNC x y => 8 + x.length + if y.length > 0 then 1 + y.length else 0
  | verbatimDisk _ => 6
  | unc x y => 2 + x.length + if y.length > 0 then 1 + y.length else 0
  | deviceNS x => 4 + x.length
  | disk _ => 2

def isVerbatim : Prefix → Bool
  | verbatim _ | verbatimUNC _ _ | verbatimDisk _ => true
  | _ => false

def isDrive : Prefix → Bool
  | disk _ => true
  | _ => false

def hasImplicitRoot (p : Prefix) : Bool := !p.isDrive

end Prefix

def isAsciiUpper (c : UInt16) : Bool := 65 ≤ c && c ≤ 90

def isAsciiLower (c : UInt16) : Bool := 97 ≤ c && c ≤ 122

def isAsciiAlphabetic (c : UInt16) : Bool := isAsciiUpper c || isAsciiLower c

def toAsciiUppercase (c : UInt16) : UInt16 := if isAsciiLower c then c - 32 else c

/-- A drive prefix, as in `C:` and `C:\whatever`. -/
def parseDrive : OsString → Option UInt16
  | c :: d :: _ => if isAsciiAlphabetic c ∧ d = colon then some (toAsciiUppercase c) else none
  | _ => none

/-- A drive prefix with nothing but a separator behind it. -/
def parseDriveExact (path : OsString) : Option UInt16 :=
  if path[2]?.all isSep then parseDrive path else none

/-- The next component, and what is behind it and its separator. -/
def parseNextComponent (path : OsString) (verbatim : Bool) : OsString × OsString :=
  let other c := if verbatim then !isVerbatimSep c else !isSep c
  (path.takeWhile other, (path.dropWhile other).drop 1)

def toBackslash (c : UInt16) : UInt16 := if c = slash then backslash else c

/-- `PrefixParser::get_prefix`: the first units, with the other separator. -/
def getPrefix (path : OsString) : OsString := (path.take 8).map toBackslash

/-- `PrefixParserSlice::strip_prefix`, at an index. -/
def stripPrefix (path : OsString) (index : ℕ) (start : OsString) : Bool :=
  start.isPrefixOf ((getPrefix path).drop index)

/-- The branch of `parse_prefix` for what begins with `\\?\`. -/
def parseVerbatim (path : OsString) : Prefix :=
  if stripPrefix path 4 [85, 78, 67, backslash] then
    let (server, rest) := parseNextComponent (path.drop 8) true
    let (share, _) := parseNextComponent rest true
    .verbatimUNC server share
  else
    match parseDriveExact (path.drop 4) with
    | some drive => .verbatimDisk drive
    | none => .verbatim (parseNextComponent (path.drop 4) true).1

/-- The branch of `parse_prefix` for `\\server\share`. -/
def parseUnc (path : OsString) : Option Prefix :=
  let (server, rest) := parseNextComponent (path.drop 2) false
  let (share, _) := parseNextComponent rest false
  if server ≠ [] ∧ share ≠ [] then some (.unc server share) else none

/-- `parse_prefix`. -/
def parsePrefix (path : OsString) : Option Prefix :=
  if stripPrefix path 0 [backslash, backslash] then
    -- a verbatim path has to be spelled with its own separator up to here
    if stripPrefix path 2 [question, backslash] ∧ slash ∉ path.take 4 then
      some (parseVerbatim path)
    else if stripPrefix path 2 [dot, backslash] then
      some (.deviceNS (parseNextComponent (path.drop 4) false).1)
    else parseUnc path
  else (parseDrive path).map .disk

def prefixLen (path : OsString) : ℕ := (parsePrefix path).elim 0 Prefix.len

/-- The path begins with a separator. -/
def StartsSep (path : OsString) : Prop := ∃ c rest, path = c :: rest ∧ isSep c

instance : DecidablePred StartsSep
  | [] => isFalse (by rintro ⟨c, rest, h, -⟩; cases h)
  | c :: rest => decidable_of_iff (isSep c = true)
      ⟨fun h => ⟨c, rest, rfl, h⟩, by rintro ⟨c', rest', h, hc⟩; cases h; exact hc⟩

def HasPhysicalRoot (path : OsString) : Prop := StartsSep (path.drop (prefixLen path))

instance : DecidablePred HasPhysicalRoot := fun path =>
  inferInstanceAs (Decidable (StartsSep (path.drop (prefixLen path))))

/-- `Path::has_root`. -/
def HasRoot (path : OsString) : Prop :=
  HasPhysicalRoot path ∨ ∃ p ∈ parsePrefix path, p.hasImplicitRoot

/-- `Path::is_absolute`. -/
def IsAbsolute (path : OsString) : Prop := HasRoot path ∧ (parsePrefix path).isSome

instance : DecidablePred HasRoot := fun path =>
  match h : parsePrefix path with
  | none => decidable_of_iff (HasPhysicalRoot path) (by simp [HasRoot, h])
  | some p => decidable_of_iff (HasPhysicalRoot path ∨ p.hasImplicitRoot) (by simp [HasRoot, h])

instance : DecidablePred IsAbsolute := fun _ => instDecidableAnd

inductive Component
  | pref (raw : OsString) (parsed : Prefix)
  | rootDir
  | curDir
  | parentDir
  | normal (name : OsString)
  deriving DecidableEq

namespace Component

def asOsStr : Component → OsString
  | pref raw _ => raw
  | rootDir => [backslash]
  | curDir => [dot]
  | parentDir => [dot, dot]
  | normal name => name

/-- `Components::parse_single_component`. -/
def parseSingle (verbatim : Bool) (comp : OsString) : Option Component :=
  if comp = [dot] then if verbatim then some curDir else none
  else if comp = [dot, dot] then some parentDir
  else if comp = [] then none
  else some (normal comp)

end Component

def prefixVerbatim (path : OsString) : Bool := (parsePrefix path).any Prefix.isVerbatim

/-- The separator of the components behind the prefix. -/
def isComponentSep (path : OsString) (c : UInt16) : Bool :=
  if prefixVerbatim path then isVerbatimSep c else isSep c

/-- The components behind the prefix and the root. -/
def bodyComponents (path rest : OsString) : List Component :=
  (rest.splitOnP (isComponentSep path)).filterMap (Component.parseSingle (prefixVerbatim path))

/-- `Components::include_cur_dir`, for a path without a root. -/
def includeCurDir (path rest : OsString) : Bool :=
  match rest with
  | [c] => c == dot
  | c :: d :: _ => c == dot && isComponentSep path d
  | [] => false

/-- `Path::components`. -/
def components (path : OsString) : List Component :=
  let rest := path.drop (prefixLen path)
  let start := match parsePrefix path with
    | some p => [Component.pref (path.take p.len) p]
    | none => []
  let body :=
    if HasPhysicalRoot path then .rootDir :: bodyComponents path (rest.drop 1)
    else match parsePrefix path with
      | some p =>
          if p.hasImplicitRoot ∧ !p.isVerbatim then .rootDir :: bodyComponents path rest
          else bodyComponents path rest
      | none =>
          if includeCurDir path rest then .curDir :: bodyComponents path (rest.drop 1)
          else bodyComponents path rest
  start ++ body

/-- A component of a path that is pushed behind a verbatim one. -/
def pushComponent (buf : List Component) : Component → List Component
  | .rootDir => buf.take 1 ++ [.rootDir]
  | .curDir => buf
  | .parentDir =>
      match buf.getLast? with
      | some (.normal _) => buf.dropLast
      | _ => buf
  | c => buf ++ [c]

/-- Whether a separator has to follow the component. -/
def Component.needSep : Component → Bool
  | rootDir => false
  | pref _ parsed => !parsed.isDrive && decide (parsed.len > 0)
  | _ => true

/-- The path of the components. -/
def joinComponents : Bool → List Component → OsString
  | _, [] => []
  | needSep, c :: buf =>
      (if needSep ∧ c ≠ .rootDir then [backslash] else []) ++ c.asOsStr ++
        joinComponents c.needSep buf

/-- A separator is needed behind what does not end in one, except for `C:`. -/
def pushNeedsSep (self : OsString) : Bool :=
  (self.getLast?.any fun c => !isSep c) &&
    !(decide (prefixLen self > 0 ∧ prefixLen self = self.length) &&
      (parsePrefix self).any Prefix.isDrive)

/-- `PathBuf::push`. -/
def push (self path : OsString) : OsString :=
  if IsAbsolute path ∨ (parsePrefix path).isSome then path
  else if prefixVerbatim self ∧ path ≠ [] then
    joinComponents false ((components path).foldl pushComponent (components self))
  else if HasRoot path then self.take (prefixLen self) ++ path
  else if pushNeedsSep self then self ++ [backslash] ++ path
  else self ++ path

end Kiruna.Seek
