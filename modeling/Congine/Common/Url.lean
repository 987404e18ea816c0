import Congine.Common.Cut
import Mathlib
/-!
# Splitting a URL

How a URL is split into a scheme and a network location, and how the
location names a host. A URL that is written out of its parts is split into
them, and a split that names a host comes from a URL so written: the scheme
is optional, whatever stands before an at sign is no part of the host, and
neither is a port, a path, a query or a fragment.

Two checks of the location rest on tables that are not here, of addresses
and of compatible characters; they are parameters.
-/

namespace Congine

namespace Url

/-! ## The splitter -/

/-- The control characters and the space, dropped where a URL begins. -/
def isControlOrSpace (c : Char) : Bool := c.toNat ≤ 0x20

/-- The characters dropped wherever they stand. -/
def isUnsafe (c : Char) : Bool := c = '\t' ∨ c = '\r' ∨ c = '\n'

def clean (url : List Char) : List Char :=
  (url.dropWhile isControlOrSpace).filter fun c => !isUnsafe c

def isSchemeChar (c : Char) : Bool := c.isAlphanum ∨ c = '+' ∨ c = '-' ∨ c = '.'

/-- Letters, digits and three marks, a letter first. -/
def isScheme : List Char → Bool
  | [] => false
  | c :: cs => c.isAlpha && cs.all isSchemeChar

/-- The characters that end a location. -/
def endsNetloc (c : Char) : Bool := c = '/' ∨ c = '?' ∨ c = '#'

/-- A URL, less its scheme. -/
def afterScheme (url : List Char) : List Char :=
  if ':' ∈ url ∧ isScheme (upTo (· = ':') url) then pastFirst ':' url else url

def scheme (url : List Char) : List Char :=
  if ':' ∈ url ∧ isScheme (upTo (· = ':') url) then (upTo (· = ':') url).map Char.toLower else []

/-- The location, which two slashes open. -/
def netloc (url : List Char) : List Char :=
  match afterScheme url with
  | '/' :: '/' :: rest => upTo endsNetloc rest
  | _ => []

/-- The host a location names: what stands in the first brackets of it,
and before the first colon where there are none. -/
def hostname (netloc : List Char) : List Char :=
  let hostinfo := pastLast '@' netloc
  if '[' ∈ hostinfo then upTo (· = ']') (pastFirst '[' hostinfo)
  else upTo (· = ':') hostinfo

structure NetlocChecks where
  /-- What stands in brackets is an address that may. -/
  bracketedHost : List Char → Bool
  /-- No character stands for a delimiter by compatibility. -/
  compatible : List Char → Bool

/-- No data before the brackets, and after them a port or nothing. -/
def bracketsOk (checks : NetlocChecks) (netloc : List Char) : Bool :=
  let hostinfo := pastLast '@' netloc
  if '[' ∈ hostinfo then
    let bracketed := pastFirst '[' hostinfo
    (upTo (· = '[') hostinfo).isEmpty && (pastFirst ']' bracketed).head?.all (· = ':') &&
      checks.bracketedHost (upTo (· = ']') bracketed)
  else checks.bracketedHost (upTo (· = ':') hostinfo)

/-- What the splitter checks of a location. -/
def netlocOk (checks : NetlocChecks) (netloc : List Char) : Bool :=
  decide ('[' ∈ netloc ↔ ']' ∈ netloc) && (!decide ('[' ∈ netloc) || bracketsOk checks netloc) &&
    (netloc.all (fun c => c.toNat < 0x80) || checks.compatible netloc)

/-! ## URLs written out -/

/-- A location at its place in a URL. -/
structure Located (url netloc : List Char) : Prop where
  ended : ∀ c ∈ netloc, endsNetloc c = false
  written : ∃ before rest, url = before ++ '/' :: '/' :: (netloc ++ rest) ∧
    Stops endsNetloc rest ∧ (before = [] ∨ ∃ s, isScheme s = true ∧ before = s ++ [':'])

/-- A host and what may follow it, as they are written. -/
inductive HostWritten (host : List Char) : List Char → Prop
  | plain {port : List Char} (hhost : ∀ c ∈ host, c ≠ ':' ∧ c ≠ '[')
      (hport : Stops (· = ':') port) : HostWritten host (host ++ port)
  | bracketed {port : List Char} (hhost : ']' ∉ host)
      (hport : Stops (· = ':') port) : HostWritten host ('[' :: host ++ ']' :: port)
  /-- The bracket is closed in the user information, before it opens. -/
  | unclosed (hhost : ']' ∉ host) : HostWritten host ('[' :: host)

/-- A location that names a host, behind user information or without it. -/
def Names (netloc host : List Char) : Prop :=
  ∃ userinfo hostinfo, netloc = userinfo ++ hostinfo ∧ '@' ∉ hostinfo ∧
    (userinfo = [] ∨ ∃ u, userinfo = u ++ ['@']) ∧ HostWritten host hostinfo

/-! ## What the splitter finds -/

theorem colon_notMem_scheme {s : List Char} (h : isScheme s = true) : ':' ∉ s := by
  intro hmem
  cases s with
  | nil => cases hmem
  | cons c cs =>
    simp only [isScheme, Bool.and_eq_true, List.all_eq_true] at h
    rcases List.mem_cons.mp hmem with rfl | hmem
    · exact absurd h.1 (by decide)
    · exact absurd (h.2 _ hmem) (by decide)

/-- **A URL less its scheme** has none left, or had none. -/
theorem afterScheme_iff {url rest : List Char} (hrest : rest.head? = some '/') :
    afterScheme url = rest ↔
      ∃ before, url = before ++ rest ∧
        (before = [] ∨ ∃ s, isScheme s = true ∧ before = s ++ [':']) := by
  unfold afterScheme
  constructor
  · intro h
    split at h
    · next hscheme =>
      refine ⟨upTo (· = ':') url ++ [':'], ?_, .inr ⟨_, hscheme.2, rfl⟩⟩
      rw [← h, List.append_assoc, List.singleton_append]
      exact upTo_sep_of_mem hscheme.1
    · exact ⟨[], by rw [List.nil_append, h], .inl rfl⟩
  · rintro ⟨before, rfl, rfl | ⟨s, hs, rfl⟩⟩
    · rw [if_neg]
      · rfl
      -- What begins with a slash begins with no scheme.
      · rintro ⟨hmem, hscheme⟩
        rw [List.nil_append] at hmem hscheme
        obtain ⟨tail, rfl⟩ : ∃ tail, rest = '/' :: tail := by
          cases rest with
          | nil => cases hrest
          | cons c tail =>
            obtain rfl := Option.some.inj hrest
            exact ⟨tail, rfl⟩
        simp [upTo, isScheme] at hscheme
    · obtain ⟨hup, hpast⟩ := upTo_sep_append (colon_notMem_scheme hs) rest
      rw [List.append_assoc, List.singleton_append, hup, hpast, if_pos ⟨by simp, hs⟩]

/-- **A location is found where it was written**, and nowhere else. -/
theorem netloc_iff {url loc : List Char} (hne : loc ≠ []) :
    netloc url = loc ↔ Located url loc := by
  constructor
  · intro h
    unfold netloc at h
    split at h
    · next rest hrest =>
      obtain ⟨before, hurl, hbefore⟩ := (afterScheme_iff rfl).mp hrest
      refine ⟨fun c hc => stop_of_mem_upTo (h ▸ hc), before, onFrom endsNetloc rest, ?_,
        stops_onFrom _ _, hbefore⟩
      rw [hurl, ← h, upTo_append_onFrom]
    · exact absurd h.symm hne
  · rintro ⟨hended, before, rest, hurl, hstops, hbefore⟩
    have hafter : afterScheme url = '/' :: '/' :: (loc ++ rest) :=
      (afterScheme_iff rfl).mpr ⟨before, hurl, hbefore⟩
    rw [netloc, hafter]
    exact (upTo_append hended hstops).1

/-! ## What a location names -/

/-- What stands behind the last at sign is what names the host. -/
theorem names_iff {loc host : List Char} :
    Names loc host ↔ HostWritten host (pastLast '@' loc) := by
  constructor
  · rintro ⟨userinfo, hostinfo, rfl, hat, huser, hwritten⟩
    rwa [pastLast_iff.mpr ⟨hat, userinfo, rfl, huser⟩]
  · intro hwritten
    obtain ⟨hat, userinfo, hloc, huser⟩ := pastLast_iff.mp (rfl : pastLast '@' loc = _)
    exact ⟨userinfo, pastLast '@' loc, hloc, hat, huser, hwritten⟩

/-- The checks keep a bracket at the front of what names the host, and a
colon behind the one that closes it. -/
theorem netlocOk_brackets {checks : NetlocChecks} {loc : List Char}
    (hok : netlocOk checks loc = true) (hopen : '[' ∈ pastLast '@' loc) :
    pastLast '@' loc = '[' :: pastFirst '[' (pastLast '@' loc) ∧
      Stops (· = ':') (pastFirst ']' (pastFirst '[' (pastLast '@' loc))) := by
  obtain ⟨-, userinfo, hloc, -⟩ := pastLast_iff.mp (rfl : pastLast '@' loc = _)
  have hmem : '[' ∈ loc := by
    rw [hloc]
    exact List.mem_append_right _ hopen
  simp only [netlocOk, hmem, decide_true, Bool.not_true, Bool.false_or, Bool.and_eq_true] at hok
  obtain ⟨⟨-, hbrackets⟩, -⟩ := hok
  simp only [bracketsOk, hopen, if_true, Bool.and_eq_true, List.isEmpty_iff] at hbrackets
  obtain ⟨⟨hbefore, hport⟩, -⟩ := hbrackets
  have hcut := upTo_sep_of_mem hopen
  rw [hbefore] at hcut
  exact ⟨hcut, stops_iff.mpr hport⟩

/-- What stands up to a closing bracket, if there is one. -/
theorem closed_or_open (bracketed : List Char) :
    (∃ port, bracketed = upTo (· = ']') bracketed ++ ']' :: port ∧
        pastFirst ']' bracketed = port) ∨ upTo (· = ']') bracketed = bracketed := by
  by_cases hmem : ']' ∈ bracketed
  · exact .inl ⟨_, upTo_sep_of_mem hmem, rfl⟩
  · exact .inr (upTo_sep_eq_self hmem)

/-- **The host of an accepted location** is the one it was written with. -/
theorem hostname_eq_iff {checks : NetlocChecks} {loc host : List Char}
    (hok : netlocOk checks loc = true) : hostname loc = host ↔ Names loc host := by
  rw [names_iff]
  have hbrackets := netlocOk_brackets hok
  unfold hostname
  generalize pastLast '@' loc = hostinfo at hbrackets
  simp only
  constructor
  · rintro rfl
    split
    · next hopen =>
      obtain ⟨hfront, hport⟩ := hbrackets hopen
      generalize pastFirst '[' hostinfo = bracketed at hfront hport
      rw [hfront]
      have hnot := notMem_upTo ']' bracketed
      rcases closed_or_open bracketed with ⟨port, hclosed, rfl⟩ | hself
      · have hwritten := HostWritten.bracketed hnot hport
        rwa [List.cons_append, ← hclosed] at hwritten
      · rw [hself] at hnot ⊢
        exact .unclosed hnot
    · next hopen =>
      have hsplit := upTo_append_onFrom (· = ':') hostinfo
      have hhost : ∀ c ∈ upTo (fun c => decide (c = ':')) hostinfo, c ≠ ':' ∧ c ≠ '[' := by
        intro c hc
        refine ⟨by simpa using stop_of_mem_upTo hc, ?_⟩
        rintro rfl
        refine hopen ?_
        rw [← hsplit]
        exact List.mem_append_left _ hc
      have hwritten := HostWritten.plain hhost (stops_onFrom (· = ':') hostinfo)
      rwa [hsplit] at hwritten
  · intro hwritten
    cases hwritten with
    | @plain port hhost hport =>
      have hclear : ∀ c ∈ host, decide (c = ':') = false :=
        fun c hc => decide_eq_false (hhost c hc).1
      have hopen : '[' ∉ host ++ port := by
        intro hmem
        -- A bracket would stand in front, where neither a host nor a port begins with one.
        have hfront := (hbrackets hmem).1
        cases host with
        | cons c host => exact (hhost c List.mem_cons_self).2 (List.cons.inj hfront).1
        | nil =>
          cases port with
          | nil => cases hmem
          | cons c port =>
            have hcolon : decide (c = ':') = true := hport
            obtain rfl := of_decide_eq_true hcolon
            exact absurd (List.cons.inj hfront).1 (by decide)
      rw [if_neg hopen]
      exact (upTo_append hclear hport).1
    | @bracketed port hhost hport =>
      have hpast : pastFirst '[' ('[' :: host ++ ']' :: port) = host ++ ']' :: port := rfl
      rw [if_pos (by simp), hpast]
      exact (upTo_sep_append hhost port).1
    | unclosed hhost =>
      have hpast : pastFirst '[' ('[' :: host) = host := rfl
      rw [if_pos (by simp), hpast]
      exact upTo_sep_eq_self hhost

/-! ## A scheme in any case -/

/-- What is lowered to no letter was written so. -/
theorem eq_of_toLower {c x : Char} (h : c.toLower = x) (hx : x.isLower = false) : c = x := by
  have halpha : c.isAlpha = false := by rw [← Char.isLower_toLower_eq_isAlpha, h, hx]
  have hupper : ¬ c.isUpper := fun hup => by
    have hletter : c.isAlpha = true := Bool.or_eq_true_iff.mpr (.inl hup)
    rw [halpha] at hletter
    cases hletter
  rw [← h, Char.toLower_eq_of_not_isUpper hupper]

theorem isAlpha_of_toLower {c x : Char} (h : c.toLower = x) (hx : x.isLower = true) :
    c.isAlpha = true := by
  rw [← Char.isLower_toLower_eq_isAlpha, h, hx]

/-- A letter is dropped nowhere. -/
theorem kept_of_isAlpha {c : Char} (h : c.isAlpha = true) :
    isControlOrSpace c = false ∧ isUnsafe c = false := by
  have hlt : 0x20 < c.toNat := by
    have hA : ('A'.val).toNat = 65 := rfl
    have ha : ('a'.val).toNat = 97 := rfl
    have hc : c.toNat = c.val.toNat := rfl
    simp only [Char.isAlpha, Char.isUpper, Char.isLower, Bool.or_eq_true, Bool.and_eq_true,
      decide_eq_true_eq, ge_iff_le, UInt32.le_iff_toNat_le] at h
    omega
  constructor
  · simpa [isControlOrSpace] using hlt
  · simp only [isUnsafe, decide_eq_false_iff_not, not_or]
    refine ⟨?_, ?_, ?_⟩ <;> (rintro rfl; exact absurd hlt (by decide))

/-- **A URL that begins with a scheme of letters**, in whatever case, has
that scheme. -/
theorem scheme_of_lower {url s rest : List Char} (hne : s ≠ [])
    (hs : ∀ c ∈ s, c.isLower = true) (h : url.map Char.toLower = s ++ ':' :: rest) :
    scheme (clean url) = s := by
  obtain ⟨front, back, rfl, hfront, hback⟩ := List.map_eq_append_iff.mp h
  obtain ⟨colon, tail, rfl, hcolon, -⟩ := List.map_eq_cons_iff.mp hback
  obtain rfl := eq_of_toLower hcolon (by decide)
  have halpha : ∀ c ∈ front, c.isAlpha = true := by
    intro c hc
    have hmem : c.toLower ∈ s := hfront ▸ List.mem_map_of_mem hc
    exact isAlpha_of_toLower rfl (hs _ hmem)
  obtain ⟨first, others, rfl⟩ : ∃ first others, front = first :: others := by
    cases front with
    | nil => exact absurd hfront.symm hne
    | cons first others => exact ⟨first, others, rfl⟩
  have hclean : clean (first :: others ++ ':' :: tail) =
      first :: others ++ ':' :: tail.filter fun c => !isUnsafe c := by
    have hfirst := kept_of_isAlpha (halpha first List.mem_cons_self)
    have hkept : (first :: others).filter (fun c => !isUnsafe c) = first :: others := by
      refine List.filter_eq_self.mpr fun c hc => ?_
      rw [(kept_of_isAlpha (halpha c hc)).2]
      rfl
    rw [clean, List.cons_append, List.dropWhile_cons_of_neg (by simp [hfirst.1]),
      ← List.cons_append, List.filter_append, hkept]
    rfl
  have hcolons : ':' ∉ first :: others := by
    intro hmem
    exact absurd (halpha _ hmem) (by decide)
  have hscheme : isScheme (first :: others) = true := by
    simp only [isScheme, Bool.and_eq_true, List.all_eq_true]
    refine ⟨halpha first List.mem_cons_self, fun c hc => ?_⟩
    simp [isSchemeChar, Char.isAlphanum, halpha c (List.mem_cons_of_mem _ hc)]
  rw [hclean, scheme, (upTo_sep_append hcolons _).1, if_pos ⟨by simp, hscheme⟩, hfront]

end Url

end Congine
