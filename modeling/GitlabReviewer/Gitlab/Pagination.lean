import GitlabReviewer.Gitlab.Client
import GitlabReviewer.Python.JsonRoundTrip
import Mathlib.Tactic.Linarith

/-! # Pagination with retries is lossless

A call is settled by its first answer that is not transient, or by the fourth
one. The pages before the last are full, so the loop stops at the page with what
is left over, which is empty when nothing is.
-/
namespace GitlabReviewer.Gitlab
open Python Models Settings

section Call
variable (L : Stdlib) {settings : SettingsRow} {url path : Text} {answers : ℕ → Answer}

/-- Answered 429 or 5xx. -/
def Transient (answer : Answer) : Prop := ∃ resp, answer = .ok resp ∧ resp.retryable = true

/-- Answered with another error status. -/
def Refused (answer : Answer) : Prop := ∃ resp, answer = .ok resp ∧ resp.retryable = false ∧ resp.ok = false

/-- Answered in the end, after three transient answers at most. -/
def Answered (answers : ℕ → Answer) : Prop :=
  ∃ a ≤ maxRetries, (∀ b < a, Transient (answers b)) ∧
    ∃ resp, answers a = .ok resp ∧ resp.retryable = false ∧ resp.ok = true

def Exhausted (answers : ℕ → Answer) : Prop := ∀ a ≤ maxRetries, Transient (answers a)

def RefusedAt (answers : ℕ → Answer) (a : ℕ) : Prop :=
  a ≤ maxRetries ∧ (∀ b < a, Transient (answers b)) ∧ Refused (answers a)

/-- What the answer that settles a call makes of it. -/
inductive Settles (answers : ℕ → Answer) (a : ℕ) : Except Raised Response → Prop
  | lost {trouble : Unanswered} (h : answers a = .error trouble) : Settles answers a (.error trouble.raised)
  | exhausted (h : Transient (answers a)) (hlast : a = maxRetries) (message : Text) :
      Settles answers a (.error (.gitLabError message))
  | refused (h : Refused (answers a)) (message : Text) : Settles answers a (.error (.gitLabError message))
  | answered {resp : Response} (h : answers a = .ok resp) (hretry : resp.retryable = false) (hok : resp.ok = true) :
      Settles answers a (.ok resp)

variable (url answers) in
/-- The answers before the settling one are transient, and each costs one request. -/
theorem apiGetFrom_settles (left : ℕ) (hleft : left ≤ maxRetries) :
    ∃ a, maxRetries - left ≤ a ∧ a ≤ maxRetries ∧ (∀ b, maxRetries - left ≤ b → b < a → Transient (answers b)) ∧
      (apiGetFrom L url answers left).1.count .request = a + 1 - (maxRetries - left) ∧
      Settles answers a (apiGetFrom L url answers left).2 := by
  induction left with
  | zero =>
    refine ⟨maxRetries, by omega, le_rfl, fun b hb hlt => by omega, ?_⟩
    unfold apiGetFrom
    cases hanswer : answers (maxRetries - 0) with
    | error trouble => exact ⟨rfl, .lost hanswer⟩
    | ok resp =>
      dsimp only
      split
      · rename_i hretry
        exact ⟨rfl, .exhausted ⟨resp, hanswer, hretry⟩ rfl _⟩
      · rename_i hretry
        split
        · rename_i hok
          exact ⟨rfl, .refused ⟨resp, hanswer, by simpa using hretry, hok⟩ _⟩
        · rename_i hok
          exact ⟨rfl, .answered hanswer (by simpa using hretry) (by simpa using hok)⟩
  | succ left ih =>
    obtain ⟨a, hfirst, hlast, htransient, hcount, hsettles⟩ := ih (by omega)
    have hstop : ([Event.delay, .request] : List Event).count .request =
        maxRetries - (left + 1) + 1 - (maxRetries - (left + 1)) := by
      rw [Nat.add_sub_cancel_left]
      rfl
    unfold apiGetFrom
    cases hanswer : answers (maxRetries - (left + 1)) with
    | error trouble => exact ⟨_, le_rfl, by omega, fun b hb hlt => by omega, hstop, .lost hanswer⟩
    | ok resp =>
      dsimp only
      split
      · rename_i hretry
        refine ⟨a, by omega, hlast, ?_, ?_, hsettles⟩
        · intro b hb hlt
          by_cases hb' : b = maxRetries - (left + 1)
          · exact ⟨resp, hb' ▸ hanswer, hretry⟩
          · exact htransient b (by omega) hlt
        · simp only [List.count_cons, reduceCtorEq, beq_iff_eq, if_false, hcount]
          simp
          omega
      · rename_i hretry
        split
        · rename_i hok
          exact ⟨_, le_rfl, by omega, fun b hb hlt => by omega, hstop,
            .refused ⟨resp, hanswer, by simpa using hretry, hok⟩ _⟩
        · rename_i hok
          exact ⟨_, le_rfl, by omega, fun b hb hlt => by omega, hstop,
            .answered hanswer (by simpa using hretry) (by simpa using hok)⟩

theorem Transient.not_refused {answer : Answer} (h : Transient answer) : ¬ Refused answer := by
  obtain ⟨resp, hanswer, hretry⟩ := h
  rintro ⟨resp', hanswer', hno, -⟩
  obtain rfl := Except.ok.inj (hanswer.symm.trans hanswer')
  rw [hretry] at hno
  cases hno

/-- Only the last retry is settled by a transient answer. -/
theorem Settles.of_transient {a : ℕ} {out : Except Raised Response} (h : Settles answers a out)
    (htransient : Transient (answers a)) : a = maxRetries ∧ ∃ message, out = .error (.gitLabError message) := by
  obtain ⟨resp, hanswer, hretry⟩ := htransient
  cases h with
  | lost hlost => exact absurd (hanswer.symm.trans hlost) (by simp)
  | exhausted _ hlast message => exact ⟨hlast, message, rfl⟩
  | refused hrefused => exact absurd hrefused (Transient.not_refused ⟨resp, hanswer, hretry⟩)
  | answered hresp hno _ =>
    obtain rfl := Except.ok.inj (hanswer.symm.trans hresp)
    rw [hretry] at hno
    cases hno

theorem Settles.of_refused {a : ℕ} {out : Except Raised Response} (h : Settles answers a out)
    (hrefused : Refused (answers a)) : ∃ message, out = .error (.gitLabError message) := by
  cases h with
  | lost hlost =>
    obtain ⟨resp, hanswer, -⟩ := hrefused
    exact absurd (hanswer.symm.trans hlost) (by simp)
  | exhausted htransient => exact absurd hrefused htransient.not_refused
  | refused _ message => exact ⟨message, rfl⟩
  | answered hresp _ hok =>
    obtain ⟨resp, hanswer, -, hno⟩ := hrefused
    obtain rfl := Except.ok.inj (hanswer.symm.trans hresp)
    rw [hok] at hno
    cases hno

theorem Settles.of_ok {a : ℕ} {out : Except Raised Response} (h : Settles answers a out) {resp : Response}
    (hanswer : answers a = .ok resp) (hretry : resp.retryable = false) (hok : resp.ok = true) : out = .ok resp := by
  cases h with
  | lost hlost => exact absurd (hanswer.symm.trans hlost) (by simp)
  | exhausted htransient =>
    obtain ⟨resp', hresp', hyes⟩ := htransient
    obtain rfl := Except.ok.inj (hanswer.symm.trans hresp')
    rw [hretry] at hyes
    cases hyes
  | refused hrefused =>
    obtain ⟨resp', hresp', -, hno⟩ := hrefused
    obtain rfl := Except.ok.inj (hanswer.symm.trans hresp')
    rw [hok] at hno
    cases hno
  | answered hresp => rw [Except.ok.inj (hanswer.symm.trans hresp)]

variable (path answers) in
/-- A call of a configured client. -/
theorem apiGet_settles (hurl : baseUrl settings ≠ []) :
    ∃ a ≤ maxRetries, (∀ b < a, Transient (answers b)) ∧
      (apiGet L settings path answers).1.count .request = a + 1 ∧ Settles answers a (apiGet L settings path answers).2 := by
  unfold apiGet
  rw [if_neg (by simpa using hurl)]
  obtain ⟨a, -, hlast, htransient, hcount, hsettles⟩ := apiGetFrom_settles L
    (baseUrl settings ++ "/api/v4".toList ++ path) answers maxRetries le_rfl
  exact ⟨a, hlast, fun b hb => htransient b (by omega) hb, by omega, hsettles⟩

variable (path) in
/-- The first answer that is not transient settles the call. -/
theorem apiGet_settles_at (hurl : baseUrl settings ≠ []) {a : ℕ} (ha : a ≤ maxRetries)
    (hbefore : ∀ b < a, Transient (answers b)) (hstop : ¬ Transient (answers a)) :
    (apiGet L settings path answers).1.count .request = a + 1 ∧ Settles answers a (apiGet L settings path answers).2 := by
  obtain ⟨a', ha', hbefore', hcount, hsettles⟩ := apiGet_settles L path answers hurl
  rcases lt_trichotomy a' a with hlt | rfl | hgt
  · have hlast := (hsettles.of_transient (hbefore a' hlt)).1
    omega
  · exact ⟨hcount, hsettles⟩
  · exact absurd (hbefore' a hgt) hstop

variable (path) in
theorem apiGet_exhausted (hurl : baseUrl settings ≠ []) (h : Exhausted answers) :
    (apiGet L settings path answers).1.count .request = maxRetries + 1 ∧
      ∃ message, (apiGet L settings path answers).2 = .error (.gitLabError message) := by
  obtain ⟨a, ha, -, hcount, hsettles⟩ := apiGet_settles L path answers hurl
  obtain ⟨rfl, hmessage⟩ := hsettles.of_transient (h a ha)
  exact ⟨hcount, hmessage⟩

variable (path) in
theorem apiGet_refused (hurl : baseUrl settings ≠ []) {a : ℕ} (h : RefusedAt answers a) :
    (apiGet L settings path answers).1.count .request = a + 1 ∧
      ∃ message, (apiGet L settings path answers).2 = .error (.gitLabError message) := by
  obtain ⟨ha, hbefore, hrefused⟩ := h
  obtain ⟨hcount, hsettles⟩ := apiGet_settles_at L path hurl ha hbefore fun ht => ht.not_refused hrefused
  exact ⟨hcount, hsettles.of_refused hrefused⟩

theorem apiGet_answered (hurl : baseUrl settings ≠ []) {a : ℕ} (ha : a ≤ maxRetries)
    (hbefore : ∀ b < a, Transient (answers b)) {resp : Response} (hanswer : answers a = .ok resp)
    (hretry : resp.retryable = false) (hok : resp.ok = true) : (apiGet L settings path answers).2 = .ok resp := by
  have hstop : ¬ Transient (answers a) := by
    rintro ⟨resp', hresp', hyes⟩
    obtain rfl := Except.ok.inj (hanswer.symm.trans hresp')
    rw [hretry] at hyes
    cases hyes
  exact (apiGet_settles_at L path hurl ha hbefore hstop).2.of_ok hanswer hretry hok

/-- Between 0 and 30 seconds. -/
def Bounded (seconds : Python.Float) : Prop := ∃ q : ℚ, seconds = .finite q ∧ 0 ≤ q ∧ q ≤ 30

theorem clamp_bounded (seconds : Python.Float) : Bounded (floatMax (.finite 0) (floatMin seconds (.finite 30))) := by
  cases seconds with
  | finite q =>
    unfold floatMin
    by_cases hq : (30 : ℚ) < q
    · rw [if_pos (by simpa [floatLt] using hq)]
      exact ⟨30, rfl, by norm_num, le_rfl⟩
    · rw [if_neg (by simpa [floatLt] using hq)]
      unfold floatMax
      by_cases hpos : (0 : ℚ) < q
      · rw [if_pos (by simpa [floatLt] using hpos)]
        exact ⟨q, rfl, hpos.le, not_lt.mp hq⟩
      · rw [if_neg (by simpa [floatLt] using hpos)]
        exact ⟨0, rfl, le_rfl, by norm_num⟩
  | infinity negative =>
    cases negative with
    | true => exact ⟨0, rfl, le_rfl, by norm_num⟩
    | false => exact ⟨30, rfl, by norm_num, le_rfl⟩
  | nan => exact ⟨0, rfl, le_rfl, by norm_num⟩

theorem apiGetFrom_backoffs (left : ℕ) : ∀ seconds, .backoff seconds ∈ (apiGetFrom L url answers left).1 → Bounded seconds := by
  induction left with
  | zero =>
    intro seconds hmem
    unfold apiGetFrom at hmem
    split at hmem
    · simp at hmem
    · split at hmem
      · simp at hmem
      · split at hmem <;> simp at hmem
  | succ left ih =>
    intro seconds hmem
    unfold apiGetFrom at hmem
    split at hmem
    · simp at hmem
    · split at hmem
      · rename_i resp _ _
        simp only [List.mem_cons, reduceCtorEq, false_or, Event.backoff.injEq] at hmem
        rcases hmem with rfl | hmem
        · exact clamp_bounded _
        · exact ih seconds hmem
      · split at hmem <;> simp at hmem

variable (settings path answers) in
theorem apiGet_backoffs : ∀ seconds, .backoff seconds ∈ (apiGet L settings path answers).1 → Bounded seconds := by
  intro seconds hmem
  unfold apiGet at hmem
  split at hmem
  · simp at hmem
  · exact apiGetFrom_backoffs L _ seconds hmem

end Call

section PageNumber
variable {I : Interpreter}

/-- The digits 0 to 9 have their values. -/
def AsciiDigits (I : Interpreter) : Prop := ∀ c, isDigit c = true → I.digit c = some (c.toNat - 48)

theorem digitRun_digits (hI : AsciiDigits I) {digits : Text} (hne : digits ≠ []) (h : ∀ c ∈ digits, isDigit c = true) :
    digitRun I digits = some (digits.map fun c => c.toNat - 48) := by
  induction digits with
  | nil => exact absurd rfl hne
  | cons c rest ih =>
    have hc := hI c (h c List.mem_cons_self)
    cases rest with
    | nil =>
      unfold digitRun
      rw [hc]
      rfl
    | cons d rest =>
      have htail := ih (List.cons_ne_nil d rest) fun e he => h e (List.mem_cons_of_mem c he)
      have hd : d ≠ '_' := by
        rintro rfl
        exact absurd (h '_' (by simp)) (by decide)
      rw [digitRun]
      · rw [hc, htail]
        rfl
      · exact List.cons_ne_nil d rest
      · intro rest' heq
        exact hd (List.cons.inj heq).1

theorem parseInt_decimal_eq (hI : AsciiDigits I) (n : ℕ) :
    parseInt I (decimal n) = if intMaxStrDigits < (decimal n).length then none else some (n : ℤ) := by
  have hdigits : ∀ c ∈ decimal n, isDigit c = true := isDigit_decimal n
  have hne : decimal n ≠ [] := decimal_ne_nil n
  have hstrip : strip (decimal n) = decimal n := stripBy_of_forall fun c hc => isSpace_of_isDigit (hdigits c hc)
  obtain ⟨c, rest, hdecimal⟩ := List.exists_cons_of_ne_nil hne
  have hc : isDigit c = true := hdigits c (hdecimal ▸ List.mem_cons_self)
  have hsigns : c ≠ '-' ∧ c ≠ '+' := by
    constructor <;> rintro rfl <;> exact absurd hc (by decide)
  have hvalue : ((decimal n).map fun c => c.toNat - 48).foldl (fun n d => 10 * n + d) 0 = n := by
    rw [List.foldl_map]
    exact readDigits_decimal n
  unfold parseInt
  rw [hstrip]
  split
  rename_i negative digits hsign
  split at hsign
  · rename_i heq
    exact absurd (List.cons.inj (hdecimal.symm.trans heq)).1 hsigns.1
  · rename_i heq
    exact absurd (List.cons.inj (hdecimal.symm.trans heq)).1 hsigns.2
  · obtain ⟨rfl, rfl⟩ := Prod.mk.inj hsign
    rw [digitRun_digits hI hne hdigits]
    dsimp only
    rw [List.length_map, hvalue]
    rfl

/-- A page number is read back, unless it has too many digits. -/
theorem parseInt_decimal (hI : AsciiDigits I) (n : ℕ) : (parseInt I (decimal n)).getD n = n := by
  rw [parseInt_decimal_eq hI]
  split <;> rfl

end PageNumber

def pageOf (items : List Json) (perPage k : ℕ) : List Json := (items.drop (k * perPage)).take perPage

/-- The server has the items in pages, numbered from 1, and names the next page or none. -/
def Serves (items : List Json) (perPage : ℕ) (listing : ℕ → ℤ → ℕ → Answer) : Prop :=
  ∀ call k attempt : ℕ, ∃ resp, listing call (k + 1) attempt = .ok resp ∧
    (resp.retryable = false → resp.ok = true → resp.body = .json (.arr (pageOf items perPage k)) ∧
      (resp.nextPage.getD [] = [] ∨ resp.nextPage = some (decimal (k + 2))))

/-- The answers to the call for the `k`-th page. -/
def pageAnswers (listing : ℕ → ℤ → ℕ → Answer) (k : ℕ) : ℕ → Answer := listing k (k + 1)

section Loop
variable {L : Stdlib} {settings : SettingsRow} {path : Text} {items : List Json} {perPage : ℕ}
  {listing : ℕ → ℤ → ℕ → Answer}

theorem followingPage_next (hL : AsciiDigits L.ints) {resp : Response} {k : ℕ}
    (h : resp.nextPage.getD [] = [] ∨ resp.nextPage = some (decimal (k + 2))) :
    followingPage L resp (k + 1) = ((k + 1 : ℕ) : ℤ) + 1 := by
  unfold followingPage
  dsimp only
  rcases h with hnone | hsome
  · rw [hnone, if_pos (by rfl)]
    push_cast
    ring
  · have hread := parseInt_decimal hL (k + 2)
    rw [hsome, Option.getD_some, if_neg (by simpa using decimal_ne_nil (k + 2))]
    push_cast at hread ⊢
    rw [show ((k : ℤ) + 1 + 1) = k + 2 by ring]
    exact hread

/-- A call that is neither answered nor exhausted is refused at its first answer that is not transient. -/
theorem refusedAt_of (hserves : Serves items perPage listing) {k : ℕ} (hexhausted : ¬ Exhausted (pageAnswers listing k))
    (hstop : ¬ Answered (pageAnswers listing k)) : ∃ a, RefusedAt (pageAnswers listing k) a := by
  classical
  have hsome : ∃ a, a ≤ maxRetries ∧ ¬ Transient (pageAnswers listing k a) := by
    by_contra hnone
    exact hexhausted fun a ha => by_contra fun hno => hnone ⟨a, ha, hno⟩
  obtain ⟨hle, hno⟩ := Nat.find_spec hsome
  have hbefore : ∀ b < Nat.find hsome, Transient (pageAnswers listing k b) := by
    intro b hb
    by_contra htransient
    exact Nat.find_min hsome hb ⟨by omega, htransient⟩
  obtain ⟨resp, hresp, -⟩ := hserves k k (Nat.find hsome)
  have hretry : resp.retryable = false := by
    by_contra hyes
    exact hno ⟨resp, hresp, by simpa using hyes⟩
  refine ⟨_, hle, hbefore, resp, hresp, hretry, ?_⟩
  by_contra hok
  exact hstop ⟨_, hle, hbefore, resp, hresp, hretry, by simpa using hok⟩

variable (L path) in
/-- A call that is answered brings its page. -/
theorem answered_page (hurl : baseUrl settings ≠ []) (hserves : Serves items perPage listing) {k : ℕ}
    (h : Answered (pageAnswers listing k)) :
    ∃ resp, (apiGet L settings path (listing k (k + 1))).2 = .ok resp ∧
      resp.json = .ok (.arr (pageOf items perPage k)) ∧
      (resp.nextPage.getD [] = [] ∨ resp.nextPage = some (decimal (k + 2))) := by
  obtain ⟨a, ha, hbefore, resp, hanswer, hretry, hok⟩ := h
  obtain ⟨resp', hresp', hbody⟩ := hserves k k a
  obtain rfl := Except.ok.inj (hanswer.symm.trans hresp')
  obtain ⟨hjson, hnext⟩ := hbody hretry hok
  refine ⟨resp, apiGet_answered L hurl ha hbefore hanswer hretry hok, ?_, hnext⟩
  unfold Response.json
  rw [hjson]

theorem length_pageOf (k : ℕ) : (pageOf items perPage k).length = min perPage (items.length - k * perPage) := by
  unfold pageOf
  rw [List.length_take, List.length_drop]

theorem take_append_pageOf (k : ℕ) : items.take (k * perPage) ++ pageOf items perPage k = items.take ((k + 1) * perPage) := by
  unfold pageOf
  rw [Nat.succ_mul, List.take_add]

variable (path) in
/-- A page before the last is followed by the next one. -/
theorem paginatedGetFrom_full (hL : AsciiDigits L.ints) (hurl : baseUrl settings ≠ []) (hpos : 0 < perPage)
    (hserves : Serves items perPage listing) {k : ℕ} (hk : k < items.length / perPage)
    (h : Answered (pageAnswers listing k)) (fuel : ℕ) :
    ∃ events, paginatedGetFrom L settings path perPage listing (fuel + 1) k (k + 1) (items.take (k * perPage)) =
      (paginatedGetFrom L settings path perPage listing fuel (k + 1) ((k + 1 : ℕ) + 1)
        (items.take ((k + 1) * perPage))).map fun (calls, result) => (events :: calls, result) := by
  obtain ⟨resp, hresp, hjson, hnext⟩ := answered_page L path hurl hserves h
  have hlength : (pageOf items perPage k).length = perPage := by
    have hbound : (k + 1) * perPage ≤ items.length := (Nat.le_div_iff_mul_le hpos).mp hk
    rw [Nat.succ_mul] at hbound
    rw [length_pageOf]
    omega
  have hne : (pageOf items perPage k).isEmpty = false := by
    rw [List.isEmpty_eq_false_iff]
    intro hnil
    rw [hnil, List.length_nil] at hlength
    omega
  refine ⟨(apiGet L settings path (listing k (k + 1))).1, ?_⟩
  rw [paginatedGetFrom]
  dsimp only
  rw [hresp]
  dsimp only
  rw [hjson]
  dsimp only
  rw [if_neg (by simp [hne]), if_neg (by omega), followingPage_next hL hnext, take_append_pageOf]

variable (L path) in
/-- The last page is short or empty. -/
theorem paginatedGetFrom_last (hurl : baseUrl settings ≠ []) (hpos : 0 < perPage)
    (hserves : Serves items perPage listing) (h : Answered (pageAnswers listing (items.length / perPage))) (fuel : ℕ) :
    ∃ events, paginatedGetFrom L settings path perPage listing (fuel + 1) (items.length / perPage)
      ((items.length / perPage : ℕ) + 1) (items.take (items.length / perPage * perPage)) = some ([events], .ok items) := by
  obtain ⟨resp, hresp, hjson, -⟩ := answered_page L path hurl hserves h
  have hdiv := Nat.div_add_mod items.length perPage
  have hmod := Nat.mod_lt items.length hpos
  rw [Nat.mul_comm] at hdiv
  have hlength : (pageOf items perPage (items.length / perPage)).length = items.length % perPage := by
    rw [length_pageOf]
    omega
  have hall : items.take ((items.length / perPage + 1) * perPage) = items := by
    apply List.take_of_length_le
    rw [Nat.succ_mul]
    omega
  refine ⟨(apiGet L settings path (listing (items.length / perPage) ((items.length / perPage : ℕ) + 1))).1, ?_⟩
  rw [paginatedGetFrom]
  dsimp only
  rw [hresp]
  dsimp only
  rw [hjson]
  dsimp only
  by_cases hempty : (pageOf items perPage (items.length / perPage)).isEmpty = true
  · have hnone : items.length % perPage = 0 := by
      rw [← hlength, List.isEmpty_iff.mp hempty]
      rfl
    rw [if_pos hempty, List.take_of_length_le (by omega)]
  · rw [if_neg hempty, if_pos (by omega), take_append_pageOf, hall]

/-- A call that fails ends the loop, whatever has been read. -/
theorem paginatedGetFrom_error {call : ℕ} {page : ℤ} {e : Raised}
    (h : (apiGet L settings path (listing call page)).2 = .error e) (fuel : ℕ) (results : List Json) :
    paginatedGetFrom L settings path perPage listing (fuel + 1) call page results =
      some ([(apiGet L settings path (listing call page)).1], .error e) := by
  rw [paginatedGetFrom]
  dsimp only
  rw [h]

variable (path) in
/-- The run as far as its first `j` calls, all of them answered. -/
theorem paginatedGet_prefix (hL : AsciiDigits L.ints) (hurl : baseUrl settings ≠ []) (hpos : 0 < perPage)
    (hserves : Serves items perPage listing) {j : ℕ} (hj : j ≤ items.length / perPage)
    (h : ∀ i < j, Answered (pageAnswers listing i)) (fuel : ℕ) :
    ∃ calls : List (List Event), calls.length = j ∧
      paginatedGet L settings path perPage listing (fuel + j) =
        (paginatedGetFrom L settings path perPage listing fuel j (j + 1) (items.take (j * perPage))).map
          fun (more, result) => (calls ++ more, result) := by
  induction j generalizing fuel with
  | zero =>
    refine ⟨[], rfl, ?_⟩
    rw [Nat.zero_mul, List.take_zero]
    exact Option.map_id'.symm
  | succ j ih =>
    obtain ⟨calls, hlength, hrun⟩ := ih (by omega) (fun i hi => h i (by omega)) (fuel + 1)
    obtain ⟨events, hstep⟩ := paginatedGetFrom_full path hL hurl hpos hserves (k := j) (by omega)
      (h j (by omega)) fuel
    refine ⟨calls ++ [events], by simp [hlength], ?_⟩
    rw [show fuel + (j + 1) = fuel + 1 + j by omega, hrun, hstep, Option.map_map]
    congr 1
    funext out
    simp

theorem paginatedGetFrom_backoffs (fuel call : ℕ) (page : ℤ) (results : List Json) {out : List (List Event) × Except Raised (List Json)}
    (h : paginatedGetFrom L settings path perPage listing fuel call page results = some out) :
    ∀ events ∈ out.1, ∀ seconds, .backoff seconds ∈ events → Bounded seconds := by
  induction fuel generalizing call page results out with
  | zero => cases h
  | succ fuel ih =>
    have hcall := apiGet_backoffs L settings path (listing call page)
    have hone : ∀ result : Except Raised (List Json), ∀ events ∈
        (([(apiGet L settings path (listing call page)).1], result) : List (List Event) × Except Raised (List Json)).1,
        ∀ seconds, .backoff seconds ∈ events → Bounded seconds := by
      intro result events hmem
      obtain rfl := List.mem_singleton.mp hmem
      exact hcall
    rw [paginatedGetFrom] at h
    dsimp only at h
    split at h
    · cases h
      exact hone _
    · split at h
      · cases h
        exact hone _
      · split at h
        · cases h
          exact hone _
        · split at h
          · cases h
            exact hone _
          · obtain ⟨more, hmore, rfl⟩ := Option.map_eq_some_iff.mp h
            intro events hmem
            rcases List.mem_cons.mp hmem with rfl | hmem
            · exact hcall
            · exact ih _ _ _ hmore events hmem
      · cases h
        exact hone _

end Loop

/-- All items in order where every page is answered in the end; a GitLab error
otherwise, at the first page that is not, after four requests or at the first
other error status. Every backoff stays within half a minute. -/
theorem pagination_lossless {L : Stdlib} (hL : AsciiDigits L.ints) {settings : SettingsRow}
    (hurl : baseUrl settings ≠ []) (path : Text) {items : List Json} {perPage : ℕ} (hpos : 0 < perPage)
    {listing : ℕ → ℤ → ℕ → Answer} (hserves : Serves items perPage listing) :
    ((∀ k ≤ items.length / perPage, Answered (pageAnswers listing k)) → ∀ fuel > items.length / perPage,
        ∃ calls, paginatedGet L settings path perPage listing fuel = some (calls, .ok items)) ∧
      (∀ k ≤ items.length / perPage, (∀ j < k, Answered (pageAnswers listing j)) → ¬ Answered (pageAnswers listing k) →
        ∀ fuel > k, ∃ calls call message,
          paginatedGet L settings path perPage listing fuel = some (calls ++ [call], .error (.gitLabError message)) ∧
            calls.length = k ∧
            (Exhausted (pageAnswers listing k) ∧ call.count .request = 4 ∨
              ∃ a, RefusedAt (pageAnswers listing k) a ∧ call.count .request = a + 1)) ∧
      ∀ fuel out, paginatedGet L settings path perPage listing fuel = some out →
        ∀ events ∈ out.1, ∀ seconds, .backoff seconds ∈ events → Bounded seconds := by
  refine ⟨?_, ?_, fun fuel out h => paginatedGetFrom_backoffs fuel 0 1 [] h⟩
  · intro hall fuel hfuel
    obtain ⟨rest, rfl⟩ : ∃ rest, fuel = rest + 1 + items.length / perPage := ⟨fuel - items.length / perPage - 1, by omega⟩
    obtain ⟨calls, -, hrun⟩ := paginatedGet_prefix path hL hurl hpos hserves le_rfl
      (fun i hi => hall i hi.le) (rest + 1)
    obtain ⟨events, hlast⟩ := paginatedGetFrom_last L path hurl hpos hserves (hall _ le_rfl) rest
    exact ⟨calls ++ [events], by rw [hrun, hlast]; rfl⟩
  · intro k hk hbefore hstop fuel hfuel
    obtain ⟨rest, rfl⟩ : ∃ rest, fuel = rest + 1 + k := ⟨fuel - k - 1, by omega⟩
    obtain ⟨calls, hlength, hrun⟩ := paginatedGet_prefix path hL hurl hpos hserves hk hbefore (rest + 1)
    obtain ⟨message, hmessage, hcount⟩ : ∃ message,
        (apiGet L settings path (listing k (k + 1))).2 = .error (.gitLabError message) ∧
          (Exhausted (pageAnswers listing k) ∧ (apiGet L settings path (listing k (k + 1))).1.count .request = 4 ∨
            ∃ a, RefusedAt (pageAnswers listing k) a ∧
              (apiGet L settings path (listing k (k + 1))).1.count .request = a + 1) := by
      by_cases hexhausted : Exhausted (pageAnswers listing k)
      · obtain ⟨hcount, message, hmessage⟩ := apiGet_exhausted L path hurl hexhausted
        exact ⟨message, hmessage, .inl ⟨hexhausted, hcount⟩⟩
      · obtain ⟨a, hrefused⟩ := refusedAt_of hserves hexhausted hstop
        obtain ⟨hcount, message, hmessage⟩ := apiGet_refused L path hurl hrefused
        exact ⟨message, hmessage, .inr ⟨a, hrefused, hcount⟩⟩
    exact ⟨calls, _, message, by rw [hrun, paginatedGetFrom_error hmessage]; rfl, hlength, hcount⟩

section Example

def plainStdlib : Stdlib where
  ints := ⟨fun c => if isDigit c then some (c.toNat - 48) else none, fun text => '\'' :: text ++ ['\''], .none⟩
  float _ := none
  quote text := text
  fromisoformat _ := none

def plainSettings : SettingsRow :=
  ⟨"https://gitlab.example.com".toList, "group/app".toList, "token".toList, [], none⟩

def fourItems : List Json := [.int 1, .int 2, .int 3, .int 4]

/-- Every page is refused once, and the one behind the last full page is empty. -/
def flakyListing (_ : ℕ) (page : ℤ) (attempt : ℕ) : Answer :=
  .ok
    { statusCode := if attempt = 0 then 503 else 200
      retryAfter := some "1".toList
      nextPage := none
      text := []
      body := .json (.arr (pageOf fourItems 2 (page.toNat - 1))) }

theorem flakyListing_serves : Serves fourItems 2 flakyListing := by
  intro call k attempt
  refine ⟨_, rfl, fun _ _ => ⟨?_, .inl rfl⟩⟩
  have hpage : ((k : ℤ) + 1).toNat - 1 = k := by omega
  rw [hpage]

theorem pagination_lossless_flaky :
    ∃ calls, paginatedGet plainStdlib plainSettings [] 2 flakyListing 3 = some (calls, .ok fourItems) := by
  have hdigits : AsciiDigits plainStdlib.ints := fun c hc => if_pos hc
  have hurl : baseUrl plainSettings ≠ [] := by decide
  refine (pagination_lossless hdigits hurl [] (by decide) flakyListing_serves).1 ?_ 3 (by decide)
  intro k _
  refine ⟨1, by decide, ?_, _, rfl, rfl, rfl⟩
  intro b hb
  obtain rfl : b = 0 := by omega
  exact ⟨_, rfl, rfl⟩

end Example

end GitlabReviewer.Gitlab
