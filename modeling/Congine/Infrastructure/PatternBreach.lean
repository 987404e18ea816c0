import Congine.Common.JsonText
import Congine.Infrastructure.JsonSchemaValidator
import Congine.Kernel.PiiSanitize
/-!
# The breach of a pattern

The message of a value that fails a pattern prints both, and the sanitiser
is to take the value out again. Printing picks the quotes by what the
value contains and escapes the ones inside; the sanitiser looks for the
next quote and knows of no escape. The two agree on a value as long as
the quotes around it are not in it, which fails for the values that have
quotes of both kinds: there the rest of the value shows.
-/

namespace Congine

/-! ## Printing a string -/

section Repr

variable (isPrintable : Char → Bool)

/-- The quotes `repr` puts around a string. -/
def reprQuote (s : String) : Char :=
  if '\'' ∈ s.toList ∧ '"' ∉ s.toList then '"' else '\''

/-- A character as `repr` prints it between quotes. Beyond ASCII it is up to
the character database of the interpreter. -/
def reprChar (quote c : Char) : List Char :=
  if c = quote ∨ c = '\\' then ['\\', c]
  else if c = '\t' then ['\\', 't']
  else if c = '\n' then ['\\', 'n']
  else if c = '\r' then ['\\', 'r']
  else if c.toNat < 0x20 ∨ c.toNat = 0x7f then '\\' :: 'x' :: hexDigits 2 c.toNat
  else if c.toNat < 0x7f ∨ isPrintable c then [c]
  else if c.toNat ≤ 0xff then '\\' :: 'x' :: hexDigits 2 c.toNat
  else if c.toNat ≤ 0xffff then '\\' :: 'u' :: hexDigits 4 c.toNat
  else '\\' :: 'U' :: hexDigits 8 c.toNat

def reprBody (quote : Char) (cs : List Char) : List Char :=
  cs.flatMap (reprChar isPrintable quote)

/-- `repr` of a string. -/
def reprStr (s : String) : String :=
  let quote := reprQuote s
  String.ofList (quote :: (reprBody isPrintable quote s.toList ++ [quote]))

end Repr

/-! ## The handler -/

/-- What the handler of `pattern` takes from outside: which characters the
interpreter prints as they are, and RE2. -/
structure PatternHost where
  isPrintable : Char → Bool
  /-- `re2.search(pattern, text) is not None`. -/
  re2Search : String → String → Except Exc Bool

namespace PatternHost

variable (host : PatternHost)

/-- `_re2_pattern`, as the message of the error it yields. -/
def re2Pattern (patrn : String) : Json → Except Exc (Option String)
  | .str value =>
      match host.re2Search patrn value with
      | .ok true => .ok none
      | .ok false => .ok (some (reprStr host.isPrintable value ++ " does not match " ++
          reprStr host.isPrintable patrn))
      | .error exc =>
          if exc.isException then .ok (some ("pattern " ++ reprStr host.isPrintable patrn ++
            " is not supported (RE2 rejected it)"))
          else .error exc
  | _ => .ok none

/-- The message of the breach, as `validate` records it. -/
def breachMessage (patrn : String) (value : Json) : Except Exc (Option String) :=
  (host.re2Pattern patrn value).map (·.map sanitizeBreachMessage)

/-- It is the message of a breach that `validate` reports, if the error is
among those under the cap. -/
theorem mem_evaluate {validator : JsonSchemaSemanticValidator} {payload schema : Json}
    {error : SemanticError} {breaches : List BreachDetail} {patrn : String} {value : Json}
    (herror : host.re2Pattern patrn value = .ok (some error.message))
    (hmem : error ∈ (validator.iterErrors payload schema).1.take validator.maxBreaches.toNat)
    (heval : validator.evaluate payload schema = .evaluated breaches) :
    ∃ breach ∈ breaches, host.breachMessage patrn value = .ok breach.message := by
  have hmessage : host.breachMessage patrn value =
      .ok (some (sanitizeBreachMessage error.message)) := by
    rw [breachMessage, herror]
    rfl
  refine ⟨{
    rule := "SEMANTIC_SCHEMA"
    field := JsonSchemaSemanticValidator.fieldPath error
    message := some (sanitizeBreachMessage error.message) }, ?_, hmessage⟩
  rw [JsonSchemaSemanticValidator.evaluate] at heval
  rcases hiter : validator.iterErrors payload schema with ⟨errors, failure⟩
  rw [hiter] at hmem heval
  simp only at hmem heval
  split_ifs at heval with hcap
  · obtain rfl := SemanticOutcome.evaluated.inj heval
    exact List.mem_append_left _ (List.mem_map.mpr ⟨error, hmem, rfl⟩)
  · rcases failure with _ | exc
    · obtain rfl := SemanticOutcome.evaluated.inj heval
      exact List.mem_map.mpr ⟨error, hmem, rfl⟩
    · cases heval

/-- A value that fails a pattern: RE2 searches it, and finds nothing. -/
def Fails (patrn value : String) : Prop := host.re2Search patrn value = .ok false

end PatternHost

/-- A string without quotes of both kinds. -/
def PlainQuotes (s : String) : Prop := ¬ ('\'' ∈ s.toList ∧ '"' ∈ s.toList)

instance (s : String) : Decidable (PlainQuotes s) := inferInstanceAs (Decidable (¬ _))

/-! ## What printing leaves of the quotes -/

section Quotes

variable (isPrintable : Char → Bool)

theorem reprQuote_cases (s : String) : reprQuote s = '\'' ∨ reprQuote s = '"' := by
  rw [reprQuote]
  split_ifs
  · exact .inr rfl
  · exact .inl rfl

theorem mem_hexDigits {w n : ℕ} {c : Char} (h : c ∈ hexDigits w n) :
    ∃ i < 16, c = Nat.digitChar i := by
  induction w generalizing n with
  | zero => cases h
  | succ w ih =>
    rw [hexDigits] at h
    rcases List.mem_append.mp h with h | h
    · exact ih h
    · exact ⟨n % 16, Nat.mod_lt _ (by decide), List.mem_singleton.mp h⟩

theorem digitChar_ne_quote : ∀ i < 16, Nat.digitChar i ≠ '\'' ∧ Nat.digitChar i ≠ '"' ∧
    Nat.digitChar i ≠ '\n' := by
  decide

/-- Of quotes and newlines, printing a character shows the character itself
at most, and never a newline. -/
theorem mem_reprChar {quote c d : Char} (hquote : quote = '\'' ∨ quote = '"')
    (h : d ∈ reprChar isPrintable quote c) (hd : d = '\'' ∨ d = '"' ∨ d = '\n') :
    d = c ∧ d ≠ '\n' := by
  have hescape : ∀ {e : Char} {w n : ℕ}, e ≠ '\'' → e ≠ '"' → e ≠ '\n' →
      d ∉ '\\' :: e :: hexDigits w n := by
    intro e w n h1 h2 h3 hmem
    rcases List.mem_cons.mp hmem with rfl | hmem
    · simp at hd
    · rcases List.mem_cons.mp hmem with rfl | hmem
      · rcases hd with heq | heq | heq
        · exact h1 heq
        · exact h2 heq
        · exact h3 heq
      · obtain ⟨i, hi, rfl⟩ := mem_hexDigits hmem
        have := digitChar_ne_quote i hi
        rcases hd with heq | heq | heq
        · exact this.1 heq
        · exact this.2.1 heq
        · exact this.2.2 heq
  have hshort : ∀ {e : Char}, e ≠ '\'' → e ≠ '"' → e ≠ '\n' → d ∉ ['\\', e] :=
    fun h1 h2 h3 => hescape (w := 0) (n := 0) h1 h2 h3
  rw [reprChar] at h
  split_ifs at h with hq ht hn hr hctrl hplain hbyte hwide
  · rcases List.mem_cons.mp h with rfl | h
    · simp at hd
    · obtain rfl : d = c := List.mem_singleton.mp h
      refine ⟨rfl, ?_⟩
      rintro rfl
      rcases hq with heq | heq
      · rcases hquote with rfl | rfl
        · exact absurd heq (by decide)
        · exact absurd heq (by decide)
      · exact absurd heq (by decide)
  · exact absurd h (hshort (by decide) (by decide) (by decide))
  · exact absurd h (hshort (by decide) (by decide) (by decide))
  · exact absurd h (hshort (by decide) (by decide) (by decide))
  · exact absurd h (hescape (by decide) (by decide) (by decide))
  · obtain rfl : d = c := List.mem_singleton.mp h
    exact ⟨rfl, hn⟩
  · exact absurd h (hescape (by decide) (by decide) (by decide))
  · exact absurd h (hescape (by decide) (by decide) (by decide))
  · exact absurd h (hescape (by decide) (by decide) (by decide))

theorem newline_not_mem_reprBody {quote : Char} (hquote : quote = '\'' ∨ quote = '"')
    (cs : List Char) : '\n' ∉ reprBody isPrintable quote cs := by
  intro h
  obtain ⟨c, -, hc⟩ := List.mem_flatMap.mp h
  exact (mem_reprChar isPrintable hquote hc (.inr (.inr rfl))).2 rfl

/-- The quotes inside are those of the string. -/
theorem quote_not_mem_reprBody {quote d : Char} (hquote : quote = '\'' ∨ quote = '"')
    (hd : d = '\'' ∨ d = '"') {cs : List Char} (hcs : d ∉ cs) :
    d ∉ reprBody isPrintable quote cs := by
  intro h
  obtain ⟨c, hc, hmem⟩ := List.mem_flatMap.mp h
  have hd' : d = '\'' ∨ d = '"' ∨ d = '\n' := hd.imp_right Or.inl
  exact hcs ((mem_reprChar isPrintable hquote hmem hd').1 ▸ hc)

/-- A string without quotes of both kinds is printed between quotes it does
not contain. -/
theorem reprQuote_not_mem {s : String} (h : PlainQuotes s) : reprQuote s ∉ s.toList := by
  rw [reprQuote]
  split_ifs with hq
  · exact hq.2
  · intro hmem
    rw [not_and_not_right] at hq
    exact h ⟨hmem, hq hmem⟩

end Quotes

/-! ## Sanitising a breach -/

section Sanitised

variable {isPrintable : Char → Bool} {v p : String}

/-- What follows the printed value in the message. -/
def messageTail (isPrintable : Char → Bool) (p : String) : List Char :=
  (" does not match " ++ reprStr isPrintable p).toList

theorem toList_reprStr (s : String) : (reprStr isPrintable s).toList =
    reprQuote s :: (reprBody isPrintable (reprQuote s) s.toList ++ [reprQuote s]) :=
  String.toList_ofList

theorem newline_not_mem_messageTail : '\n' ∉ messageTail isPrintable p := by
  have hwords : '\n' ∉ " does not match ".toList := by simp
  have hbody := newline_not_mem_reprBody isPrintable (reprQuote_cases p) p.toList
  have hquote : '\n' ≠ reprQuote p := by
    rcases reprQuote_cases p with h | h
    · rw [h]
      decide
    · rw [h]
      decide
  have hrepr : '\n' ∉ (reprStr isPrintable p).toList := by
    rw [toList_reprStr]
    simp [hbody, hquote]
  intro h
  rw [messageTail, String.toList_append] at h
  rcases List.mem_append.mp h with hmem | hmem
  · exact hwords hmem
  · exact hrepr hmem

/-- A quoted span at the front goes at once. -/
theorem sanitizeFrom_quoted {quote : Char} {body rest : List Char}
    (hquote : quote = '\'' ∨ quote = '"') (hbody : quote ∉ body) (hnl : '\n' ∉ body) :
    sanitizeFrom false (quote :: (body ++ quote :: rest)) =
      redacted ++ sanitizeFrom false rest := by
  rw [sanitizeFrom, if_pos hquote.symm, closeQuote_append hbody hnl]

/-- **A plain value is taken out.** -/
theorem sanitizeFrom_plain (h : PlainQuotes v) :
    sanitizeFrom false ((reprStr isPrintable v).toList ++ messageTail isPrintable p) =
      redacted ++ sanitizeFrom false (messageTail isPrintable p) := by
  have hquote := reprQuote_cases v
  have hclosed := quote_not_mem_reprBody isPrintable hquote hquote
    (reprQuote_not_mem h)
  rw [← sanitizeFrom_quoted hquote hclosed (newline_not_mem_reprBody isPrintable hquote v.toList)]
  simp [toList_reprStr]

variable (isPrintable p) in
/-- Of the others, the span ends at the first apostrophe of the value. -/
theorem sanitizeFrom_mixed (h : ¬ PlainQuotes v) : ∃ rest, '\n' ∉ rest ∧
    sanitizeFrom false ((reprStr isPrintable v).toList ++ messageTail isPrintable p) =
      redacted ++ sanitizeFrom false (rest ++ '\'' :: messageTail isPrintable p) := by
  rw [PlainQuotes, not_not] at h
  have hquote : reprQuote v = '\'' := by
    rw [reprQuote, if_neg (fun hq => hq.2 h.2)]
  obtain ⟨front, back, hv, hfront⟩ := List.eq_append_cons_of_mem h.1
  have hbody : reprBody isPrintable '\'' v.toList =
      (reprBody isPrintable '\'' front ++ ['\\']) ++
        '\'' :: reprBody isPrintable '\'' back := by
    simp [hv, reprBody, reprChar]
  have hopen : '\'' ∉ reprBody isPrintable '\'' front ++ ['\\'] := by
    have := quote_not_mem_reprBody isPrintable (.inl rfl) (.inl rfl) hfront
    simp [this]
  have hline : '\n' ∉ reprBody isPrintable '\'' front ++ ['\\'] := by
    have := newline_not_mem_reprBody isPrintable (.inl rfl) front
    simp [this]
  refine ⟨reprBody isPrintable '\'' back, newline_not_mem_reprBody isPrintable (.inl rfl) back, ?_⟩
  rw [← sanitizeFrom_quoted (.inl rfl) hopen hline]
  simp [toList_reprStr, hquote, hbody]

/-- A value with quotes of both kinds is told from one without. -/
theorem sanitizeFrom_mixed_ne {w : String} (hv : ¬ PlainQuotes v) (hw : PlainQuotes w) :
    sanitizeFrom false ((reprStr isPrintable v).toList ++ messageTail isPrintable p) ≠
      sanitizeFrom false ((reprStr isPrintable w).toList ++ messageTail isPrintable p) := by
  obtain ⟨rest, hrest, hmixed⟩ := sanitizeFrom_mixed isPrintable p hv
  rw [hmixed, sanitizeFrom_plain hw]
  intro h
  exact sanitizeFrom_ne hrest newline_not_mem_messageTail (List.append_cancel_left h)

end Sanitised

namespace PatternHost

variable {host : PatternHost} {p v w : String}

theorem breachMessage_of_fails (h : host.Fails p v) : host.breachMessage p (.str v) =
    .ok (some (String.ofList (sanitizeFrom false
      ((reprStr host.isPrintable v).toList ++ messageTail host.isPrintable p)))) := by
  have hsearch : host.re2Search p v = .ok false := h
  rw [breachMessage, re2Pattern, hsearch]
  simp only [Except.map, Option.map_some, sanitizeBreachMessage, String.append_assoc]
  rw [String.toList_append, messageTail]

/-- Two breaches are recorded alike when the sanitiser makes one text of them. -/
theorem breachMessage_eq_iff (hv : host.Fails p v) (hw : host.Fails p w) :
    host.breachMessage p (.str v) = host.breachMessage p (.str w) ↔
      sanitizeFrom false ((reprStr host.isPrintable v).toList ++
          messageTail host.isPrintable p) =
        sanitizeFrom false ((reprStr host.isPrintable w).toList ++
          messageTail host.isPrintable p) := by
  rw [breachMessage_of_fails hv, breachMessage_of_fails hw, Except.ok.injEq, Option.some.injEq,
    String.ofList_inj]

/-- **A sanitised pattern breach hides the values without quotes of both
kinds, and tells every other from these.** -/
theorem breachMessage_hides_iff (hv : host.Fails p v) (hw : host.Fails p w) :
    (PlainQuotes v ∧ PlainQuotes w →
      host.breachMessage p (.str v) = host.breachMessage p (.str w)) ∧
    (PlainQuotes v ∨ PlainQuotes w →
      host.breachMessage p (.str v) = host.breachMessage p (.str w) →
        PlainQuotes v ∧ PlainQuotes w) := by
  rw [breachMessage_eq_iff hv hw]
  constructor
  · rintro ⟨hv', hw'⟩
    rw [sanitizeFrom_plain hv', sanitizeFrom_plain hw']
  · intro hplain heq
    rcases hplain with hv' | hw'
    · refine ⟨hv', ?_⟩
      by_contra hw'
      exact sanitizeFrom_mixed_ne hw' hv' heq.symm
    · refine ⟨?_, hw'⟩
      by_contra hv'
      exact sanitizeFrom_mixed_ne hv' hw' heq

/-- A host for patterns of plain letters, which prints every character. -/
def letters : PatternHost where
  isPrintable _ := true
  re2Search pattern text := .ok (decide (pattern.toList <:+: text.toList))

theorem breachMessage_hides_letters :
    letters.breachMessage "z" (.str "it's") = letters.breachMessage "z" (.str "a \"b\"") := by
  have hfails : letters.Fails "z" "it's" ∧ letters.Fails "z" "a \"b\"" := ⟨rfl, rfl⟩
  exact (breachMessage_hides_iff hfails.1 hfails.2).1 ⟨by decide, by decide⟩

/-- **Quotes of both kinds let the rest of the value through.** -/
theorem breachMessage_shows :
    letters.Fails "z" "a'b\"c" ∧ letters.Fails "z" "abc" ∧
      letters.breachMessage "z" (.str "a'b\"c") = .ok (some "'<redacted>'b\"c'<redacted>'z'") ∧
      letters.breachMessage "z" (.str "abc") =
        .ok (some "'<redacted>' does not match '<redacted>'") ∧
      ¬ ∀ (host : PatternHost) (p v w : String), host.Fails p v → host.Fails p w →
        host.breachMessage p (.str v) = host.breachMessage p (.str w) := by
  have hfails : letters.Fails "z" "a'b\"c" ∧ letters.Fails "z" "abc" := ⟨rfl, rfl⟩
  have hmixed : letters.breachMessage "z" (.str "a'b\"c") =
      .ok (some "'<redacted>'b\"c'<redacted>'z'") := by
    decide +kernel
  have hplain : letters.breachMessage "z" (.str "abc") =
      .ok (some "'<redacted>' does not match '<redacted>'") := by
    decide +kernel
  refine ⟨hfails.1, hfails.2, hmixed, hplain, ?_⟩
  intro hall
  have heq := hall letters "z" "a'b\"c" "abc" hfails.1 hfails.2
  rw [hmixed, hplain] at heq
  simp at heq

end PatternHost

end Congine
