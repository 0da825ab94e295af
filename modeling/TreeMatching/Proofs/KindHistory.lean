import TreeMatching.Proofs.SyntaxErrors

set_option autoImplicit false

/-!
# The history of a table of kinds

A table of kinds is changed by meeting single names and by reading texts, and a text that is refused
has changed the table by the names in front of the place where it is refused.  Whatever calls are
made, the table lists the names in the order in which they were first met, names and kinds determine
each other, and what a table says once it says ever after.

## Main definitions

* `Term.Place`, `Term.namesFrom`, `Term.kindNames` — the names of kinds in a text, from left to
  right.
* `Term.legible` — the part of a text that is read.
* `KindTable.Call`, `KindTable.serve`, `KindTable.run` — a call that may change a table, and a
  history of calls.
* `KindTable.Call.names`, `KindTable.met` — the names that are met by a call and by a history.
* `KindTable.Records` — a table lists names in the order in which they were first met.

## Main results

* `Term.internAll_namesFrom_step` — one step of the machine meets what stands in front of it.
* `Term.read_fst_eq` — reading a text meets the names in the part that is read.
* `KindTable.Records.intern`, `KindTable.run_eq` — a single name, and a history of calls.
* `kinds_and_names_stay_inverse` — the results together.
-/

namespace TreeMatching

namespace Term

open State

/-! ### The names of kinds in a text -/

/-- Where one stands in a text while looking for the names of kinds. -/
inductive Place where
  /-- Before a name, at the beginning or behind a parenthesis or a comma. -/
  | before
  /-- Within a name, whose characters so far are kept in reverse. -/
  | within (read : List Char)
  /-- Behind a name, where labels and closing parentheses may stand. -/
  | behind
  /-- Within quotation marks. -/
  | quoted
  /-- Within quotation marks, right behind a backslash. -/
  | escaped

/-- Where one stands behind a character that is not part of a name of a kind. -/
def Place.next (c : Char) : Place :=
  if c = '(' ∨ c = ',' then .before else if c = '"' then .quoted else .behind

/-- The names of kinds in the rest of a text: those that begin the text or follow an opening
parenthesis or a comma outside quotation marks. -/
def namesFrom : Place → List Char → List String
  | .within read, [] => [String.ofList read.reverse]
  | _, [] => []
  | .before, c :: cs => namesFrom (if isNameChar c then .within [c] else .before) cs
  | .within read, c :: cs =>
    if isNameChar c then namesFrom (.within (c :: read)) cs
    else String.ofList read.reverse :: namesFrom (.next c) cs
  | .behind, c :: cs => namesFrom (.next c) cs
  | .quoted, c :: cs =>
    namesFrom (if c = '"' then .behind else if c = '\\' then .escaped else .quoted) cs
  | .escaped, _ :: cs => namesFrom .quoted cs

/-- The names of kinds in a text, from left to right. -/
def kindNames (cs : List Char) : List String := namesFrom .before cs

/-- The characters within the first `n` bytes. -/
def takeBytes : Nat → List Char → List Char
  | _, [] => []
  | n, c :: cs => if c.utf8Size ≤ n then c :: takeBytes (n - c.utf8Size) cs else []

/-- The part of a text that is read: all of it, or what stands before the reported place. -/
def legible (kinds : KindTable) (text : String) : List Char :=
  match (Term.read kinds text).2 with
  | .error (.syntaxAt offset _) => takeBytes offset text.toList
  | _ => text.toList

variable {q q' : State} {kinds kinds' : KindTable} {offset n : Nat} {c : Char} {u v cs : List Char}
  {problem : SyntaxProblem}

/-- The first bytes of a text, as many as those of a part it begins with, are that part. -/
lemma takeBytes_append (u v : List Char) : takeBytes (bytes u) (u ++ v) = u := by
  induction u with
  | nil =>
    cases v with
    | nil => rfl
    | cons c v =>
      have hpos := c.utf8Size_pos
      rw [List.nil_append, takeBytes, if_neg]
      rw [bytes_nil]
      omega
  | cons c u ih =>
    rw [List.cons_append, bytes_cons, takeBytes, if_pos (Nat.le_add_right ..),
      Nat.add_sub_cancel_left, ih]

/-! ### What reading meets -/

/-- The place at which the machine stands. -/
def Mode.place : Mode → Place
  | .name => .before
  | .inName read => .within read
  | .inQuotes .. => .quoted
  | .escaped .. => .escaped
  | .label _ | .inLabel .. | .atom _ | .after => .behind

/-- Characters of a class without punctuation lead on behind the name. -/
lemma next_of_class {p : Char → Bool} (hopen : p '(' = false) (hcomma : p ',' = false)
    (hquote : p '"' = false) (hc : p c = true) : Place.next c = .behind := by
  have hne : ∀ d, p d = false → c ≠ d := by
    rintro d hd rfl
    rw [hc] at hd
    cases hd
  rw [Place.next, if_neg (not_or.2 ⟨hne _ hopen, hne _ hcomma⟩), if_neg (hne _ hquote)]

/-- Blanks lead on behind the name. -/
lemma next_of_isBlank (hc : Text.isBlank c = true) : Place.next c = .behind :=
  next_of_class (by decide) (by decide) (by decide) hc

/-- So do characters of names: there they belong to a label. -/
lemma next_of_isNameChar (hc : isNameChar c = true) : Place.next c = .behind :=
  next_of_class (by decide) (by decide) (by decide) hc

/-- Skipping a character, or turning to another tree, meets no name. -/
lemma SkipsOrTurns.kinds_eq (h : SkipsOrTurns q c q') : q'.kinds = q.kinds := by
  rcases h with ⟨rfl, -⟩ | hturn
  · rfl
  · cases hturn <;> rfl

/-- Behind a name, the character that is skipped or turns to another tree says where the machine
stands next. -/
lemma SkipsOrTurns.place_eq (h : SkipsOrTurns q c q') (hq : q.mode.place = .behind) :
    q'.mode.place = .next c := by
  rcases h with ⟨rfl, hblank⟩ | hturn
  · rw [hq, next_of_isBlank hblank]
  · cases hturn <;> rfl

/-- **One step of the machine meets the names that stand in front of it**, and leaves the others to
what follows.

**Proof sketch.** By the moves of the machine.  A move leads from the place of a mode to the place
of the next one, and the names from there on are the same, except that the end of a name moves this
name into the table. -/
lemma internAll_namesFrom_step (h : q.step offset c = .ok q') :
    q.kinds.internAll (namesFrom q.mode.place (c :: cs)) =
      q'.kinds.internAll (namesFrom q'.mode.place cs) := by
  cases move_of_step h with
  | blank hmode hc =>
    rw [hmode, Mode.place, namesFrom, isNameChar_of_isBlank hc, if_neg Bool.false_ne_true]
  | beginName hmode hc => rw [hmode, Mode.place, namesFrom, if_pos hc]; rfl
  | name hmode hc => rw [hmode, Mode.place, namesFrom, if_pos hc]; rfl
  | colon hmode hc =>
    subst hc
    rw [hmode, Mode.place, namesFrom, if_neg (by decide)]
    rfl
  | endName hmode hc turn =>
    have hplace := turn.place_eq (by rw [endToken, hmode]; rfl)
    rw [hplace, turn.kinds_eq, hmode, Mode.place, namesFrom, hc, if_neg Bool.false_ne_true,
      endToken, hmode]
    rfl
  | openQuote hmode hc => subst hc; rw [hmode]; rfl
  | beginLabel hmode hc => rw [hmode, Mode.place, namesFrom, next_of_isNameChar hc]; rfl
  | label hmode hc => rw [hmode, Mode.place, namesFrom, next_of_isNameChar hc]; rfl
  | endLabel hmode hc turn =>
    have hplace := turn.place_eq (by rw [endToken, hmode]; rfl)
    rw [hplace, turn.kinds_eq, hmode, endToken, hmode]
    rfl
  | closeQuote hmode hc => rw [hmode, Mode.place, namesFrom, if_pos hc]; rfl
  | backslash hmode hc =>
    subst hc
    rw [hmode]
    rfl
  | quoted hmode hquote hbackslash =>
    rw [hmode, Mode.place, namesFrom, if_neg hquote, if_neg hbackslash]
    rfl
  | escaped hmode => rw [hmode]; rfl
  | atom hmode turn =>
    rw [turn.place_eq (by rw [hmode]; rfl), turn.kinds_eq, hmode]
    rfl
  | after hmode turn =>
    rw [turn.place_eq (by rw [hmode]; rfl), turn.kinds_eq, hmode]
    rfl

/-- At the end of what is read, only the name that is being read is met. -/
lemma kinds_endToken (q : State) :
    q.endToken.kinds = q.kinds.internAll (namesFrom q.mode.place []) := by
  obtain ⟨kinds, mode, done, above⟩ := q
  cases mode <;> rfl

/-- Ending a text within a quoted label meets no name. -/
lemma kinds_endToken_of_quote? (h : q.mode.quote? = some n) : q.endToken.kinds = q.kinds := by
  obtain ⟨kinds, mode, done, above⟩ := q
  cases mode with
  | inQuotes | escaped => rfl
  | _ => cases h

/-- While a quoted label is read, no name is met. -/
lemma kinds_of_quote? (h : q.step offset c = .ok q') (hn : q'.mode.quote? = some n) :
    q'.kinds = q.kinds ∧ q.endToken.kinds = q.kinds := by
  cases move_of_step h with
  | blank hmode _ => simp [hmode, Mode.quote?] at hn
  | endName hmode _ turn | endLabel hmode _ turn =>
    have hquote := turn.quote? hn
    simp [endToken, hmode, Mode.quote?] at hquote
  | atom hmode turn | after hmode turn =>
    have hquote := turn.quote? hn
    simp [hmode, Mode.quote?] at hquote
  | openQuote hmode _ | backslash hmode _ | quoted hmode _ _ | escaped hmode =>
    exact ⟨rfl, by rw [endToken, hmode]⟩
  | _ => cases hn

/-- **A run that succeeds meets all names in front of it.** -/
lemma internAll_of_readFrom_ok {t : Rooted Content}
    (h : readFrom q offset cs = (kinds', .ok t)) :
    kinds' = q.kinds.internAll (namesFrom q.mode.place cs) := by
  induction cs generalizing q offset with
  | nil => exact (congrArg Prod.fst h).symm.trans (kinds_endToken q)
  | cons c cs ih =>
    obtain ⟨q', hstep, h⟩ := exists_step_of_readFrom h
    rw [internAll_namesFrom_step hstep]
    exact ih h

/-- **A run that fails meets the names before the place that it reports.**  If that place is the
beginning of a label which was being read before, no names are met.

**Proof sketch.** Induction on the text.  A step forward meets what stands in front of it, by
`internAll_namesFrom_step`.  A run that fails meets the name that it was reading, if any, which ends
there.  If an open quote is reported, then nothing has been met since it was opened. -/
lemma internAll_of_readFrom_error (hq : q.Live)
    (h : readFrom q offset cs = (kinds', .error (n, problem))) :
    (∃ u v, cs = u ++ v ∧ n = offset + bytes u ∧
      kinds' = q.kinds.internAll (namesFrom q.mode.place u)) ∨
    (q.mode.quote? = some n ∧ kinds' = q.kinds) := by
  induction cs generalizing q offset with
  | nil =>
    obtain rfl : q.endToken.kinds = kinds' := congrArg Prod.fst h
    cases hq.stop_of_finish (congrArg Prod.snd h) with
    | refused hsplit _ _ _ => simp at hsplit
    | ended _ _ => exact .inl ⟨[], [], rfl, rfl, kinds_endToken q⟩
    | quoted _ quote =>
      rcases quote with hquote | ⟨u, v, hsplit, -⟩
      · exact .inr ⟨hquote, kinds_endToken_of_quote? hquote⟩
      · simp at hsplit
  | cons c cs ih =>
    rw [readFrom] at h
    split at h
    · next q' hstep =>
      rcases ih (hq.step hstep) h with ⟨u, v, rfl, rfl, hkinds⟩ | ⟨hquote, hkinds⟩
      · refine .inl ⟨c :: u, v, rfl, by rw [bytes_cons, Nat.add_assoc], ?_⟩
        rw [internAll_namesFrom_step hstep]
        exact hkinds
      · -- the quote that is reported was opened by this character or before
        obtain ⟨hsame, hend⟩ := kinds_of_quote? hstep hquote
        rcases quote?_of_step hstep hquote with hbefore | ⟨-, hn⟩
        · exact .inr ⟨hbefore, hkinds.trans hsame⟩
        · refine .inl ⟨[], c :: cs, rfl, hn, ?_⟩
          rw [← kinds_endToken, hend, hkinds, hsame]
    · next problem' hstep =>
      cases h
      exact .inl ⟨[], c :: cs, rfl, rfl, kinds_endToken q⟩

/-- **Reading a text meets the names in the part that is read**, from left to right.

**Proof sketch.** If the text can be read, all of it counts, and otherwise what stands before the
reported place.  At the beginning no label is being read, so the place is never that of an earlier
quote. -/
theorem read_fst_eq (kinds : KindTable) (text : String) :
    (Term.read kinds text).1 = kinds.internAll (kindNames (legible kinds text)) := by
  rcases read_cases kinds text with ⟨kinds', t, tree, hrun, hread⟩ |
    ⟨kinds', n, problem, hrun, hread⟩
  · rw [legible, hread]
    exact internAll_of_readFrom_ok hrun
  · rw [legible, hread]
    rcases internAll_of_readFrom_error (live_start kinds) hrun with
      ⟨u, v, hsplit, rfl, hkinds⟩ | ⟨hquote, -⟩
    · dsimp only
      rw [hsplit, Nat.zero_add, takeBytes_append]
      exact hkinds
    · cases hquote

end Term

namespace KindTable

variable {t : KindTable} {used : List String}

/-! ### Calls -/

/-- A call that may change a table of kinds. -/
inductive Call where
  | intern (name : String)
  | read (text : String)

/-- The table after a call.  Reading a text may fail; the table is kept as it is then. -/
def serve (t : KindTable) : Call → KindTable
  | .intern name => (t.intern name).2
  | .read text => (Term.read t text).1

/-- The table after a history of calls. -/
def run (t : KindTable) (calls : List Call) : KindTable := calls.foldl serve t

/-- The names that a call meets, in order.  A text meets the names of kinds in the part of it that
is read. -/
def Call.names (t : KindTable) : Call → List String
  | .intern name => [name]
  | .read text => Term.kindNames (Term.legible t text)

/-- The names that a history of calls meets, in order and with repetitions. -/
def met (t : KindTable) : List Call → List String
  | [] => []
  | call :: calls => call.names t ++ met (t.serve call) calls

/-- **A call does to a table what meeting its names does.** -/
lemma serve_eq (t : KindTable) (call : Call) : t.serve call = t.internAll (call.names t) := by
  cases call with
  | intern name => rfl
  | read text => exact Term.read_fst_eq t text

/-- **A history of calls does to a table what meeting its names does.** -/
lemma run_eq (t : KindTable) (calls : List Call) : t.run calls = t.internAll (t.met calls) := by
  induction calls generalizing t with
  | nil => rfl
  | cons call calls ih =>
    rw [met, internAll_append, ← serve_eq]
    exact ih (t.serve call)

/-- Two histories of calls in a row. -/
lemma run_append (t : KindTable) (calls others : List Call) :
    t.run (calls ++ others) = (t.run calls).run others :=
  List.foldl_append

/-! ### What a table lists -/

/-- A name that is not known is put behind all others, and its kind counts its place. -/
lemma intern_of_get?_eq_none {name : String} (h : t.get? name = none) :
    t.intern name = (⟨UInt32.ofNat t.names.size⟩,
      ⟨t.names.push name, t.kinds.insert name ⟨UInt32.ofNat t.names.size⟩⟩) := by
  rw [KindTable.intern, h]

/-- The table lists the names that were met, each at the place where it was first met, and the kind
of a name counts its place. -/
structure Records (t : KindTable) (used : List String) : Prop where
  names : t.names.toList = used.eraseDups
  known : ∀ name ∈ used, ∃ k, t.get? name = some k
  place : ∀ name k, t.get? name = some k →
    ∃ i : Nat, used.eraseDups[i]? = some name ∧ k = ⟨UInt32.ofNat i⟩

/-- A table has as many names as different ones were met. -/
lemma Records.size_eq (h : t.Records used) : used.eraseDups.length = t.names.size := by
  rw [← h.names, Array.length_toList]

/-- The empty table records that no name was met. -/
lemma records_empty : empty.Records [] where
  names := rfl
  known := List.forall_mem_nil _
  place := by simp [empty, get?]

/-- **Meeting a name** adds it to the end of the list, unless it is there already.

**Proof sketch.** A known name is in the list, so that adding it again changes nothing.  A new name
is not, and it is added at the end of the list and of the table; the numbers of the others stay as
they are. -/
lemma Records.intern (h : t.Records used) (name : String) :
    (t.intern name).2.Records (used ++ [name]) := by
  cases hname : t.get? name with
  | some k =>
    obtain ⟨i, hi, -⟩ := h.place name k hname
    have hmem : name ∈ used := List.mem_eraseDups.1 (List.mem_of_getElem? hi)
    have hsame : (used ++ [name]).eraseDups = used.eraseDups := by
      simp [List.eraseDups_append, List.removeAll, hmem]
    rw [intern_of_get?_eq_some hname]
    refine ⟨by rw [hsame]; exact h.names, fun other hother => h.known other ?_, ?_⟩
    · rcases List.mem_append.1 hother with hother | hother
      · exact hother
      · rwa [List.mem_singleton.1 hother]
    · rw [hsame]
      exact h.place
  | none =>
    have hmem : name ∉ used := by
      intro hmem
      obtain ⟨k, hk⟩ := h.known name hmem
      rw [hname] at hk
      cases hk
    have hnew : (used ++ [name]).eraseDups = used.eraseDups ++ [name] := by
      simp [List.eraseDups_append, List.removeAll, hmem, List.eraseDups_cons]
    refine ⟨?_, fun other hother => ?_, fun other k hother => ?_⟩
    · rw [hnew, ← h.names, intern_of_get?_eq_none hname, Array.toList_push]
    · rcases List.mem_append.1 hother with hother | hother
      · obtain ⟨k, hk⟩ := h.known other hother
        exact ⟨k, get?_intern_of_get? name hk⟩
      · rw [List.mem_singleton.1 hother]
        exact ⟨_, get?_intern_self t name⟩
    · rw [hnew]
      by_cases heq : name = other
      · subst heq
        rw [get?_intern_self, Option.some_inj] at hother
        refine ⟨used.eraseDups.length, List.getElem?_concat_length, ?_⟩
        rw [← hother, h.size_eq, intern_of_get?_eq_none hname]
      · have hold : t.get? other = some k := by
          simpa [intern_of_get?_eq_none hname, get?, Std.HashMap.getElem?_insert, heq] using hother
        obtain ⟨i, hi, hk⟩ := h.place other k hold
        have hlt := (List.getElem?_eq_some_iff.1 hi).1
        exact ⟨i, by rw [List.getElem?_append_left hlt, hi], hk⟩

/-- Meeting several names, one after the other, records them behind those met before. -/
lemma Records.internAll (h : t.Records used) (names : List String) :
    (t.internAll names).Records (used ++ names) := by
  induction names generalizing t used with
  | nil => rwa [List.append_nil]
  | cons name names ih =>
    rw [List.append_cons]
    exact ih (h.intern name)

/-- A table that begins empty lists the names that its history has met. -/
lemma records_run (calls : List Call) : (empty.run calls).Records (empty.met calls) := by
  rw [run_eq]
  exact records_empty.internAll _

/-- **As long as the kinds are not used up, the kind of a name stands for it.** -/
lemma Records.name?_of_get? {name : String} {k : Kind} (h : t.Records used)
    (hsize : t.names.size ≤ 2 ^ 32) (hk : t.get? name = some k) : t.name? k = some name := by
  obtain ⟨i, hi, rfl⟩ := h.place name k hk
  have hlt : i < 2 ^ 32 := by
    rw [← h.size_eq] at hsize
    exact (List.getElem?_eq_some_iff.1 hi).1.trans_le hsize
  rw [name?, UInt32.toNat_ofNat_of_lt' hlt, ← Array.getElem?_toList, h.names, hi]

/-! ### What a table keeps -/

/-- A kind keeps its name when another name is met. -/
lemma name?_intern_of_name? {name : String} {k : Kind} (other : String)
    (h : t.name? k = some name) : (t.intern other).2.name? k = some name := by
  cases hother : t.get? other with
  | some k' => rwa [intern_of_get?_eq_some hother]
  | none =>
    have hlt : k.tag.toNat < t.names.size := (Array.getElem?_eq_some_iff.1 h).1
    rw [intern_of_get?_eq_none hother, name?, Array.getElem?_push_lt hlt]
    rwa [name?, Array.getElem?_eq_getElem hlt] at h

/-- A kind keeps standing for its name when further names are met. -/
lemma name?_internAll_of_name? {name : String} {k : Kind} (names : List String)
    (h : t.name? k = some name) : (t.internAll names).name? k = some name := by
  induction names generalizing t with
  | nil => exact h
  | cons other names ih => exact ih (name?_intern_of_name? other h)

end KindTable

/-- **Kinds and names stay inverse to each other.**  Let a table begin empty and be changed by any
calls that meet names and read texts, also by texts that are refused, and let no more names be met
than there are kinds.  Then a name has a kind exactly if the kind stands for the name; the kinds in
use are numbered from zero in the order in which the names were first met; and whatever the table
said after the first few calls, it still says after all of them.

**Proof sketch.** Reading a text meets the names of kinds in it up to the place where it is refused,
if it is.  So all calls together meet a list of names, one after the other, and each of them is put
at the end of the table unless it is there already. -/
theorem kinds_and_names_stay_inverse (calls : List KindTable.Call)
    (hsize : (KindTable.empty.run calls).names.size ≤ 2 ^ 32) :
    let t := KindTable.empty.run calls
    let names := (KindTable.empty.met calls).eraseDups
    (∀ name k, t.get? name = some k ↔ t.name? k = some name) ∧
    ((∀ k, t.name? k = names[k.tag.toNat]?) ∧
      ∀ k, (∃ name, t.get? name = some k) ↔ k.tag.toNat < names.length) ∧
    ∀ first others, calls = first ++ others → ∀ name k,
      ((KindTable.empty.run first).get? name = some k → t.get? name = some k) ∧
      ((KindTable.empty.run first).name? k = some name → t.name? k = some name) := by
  intro t names
  have hrecords : t.Records (KindTable.empty.met calls) := KindTable.records_run calls
  have hfaithful : t.Faithful := by
    rw [show t = _ from KindTable.run_eq .empty calls]
    exact KindTable.faithful_empty.internAll _
  have hinverse : ∀ name k, t.get? name = some k ↔ t.name? k = some name := fun name k =>
    ⟨hrecords.name?_of_get? hsize, hfaithful k name⟩
  have hnames : ∀ k, t.name? k = names[k.tag.toNat]? := by
    intro k
    rw [KindTable.name?, ← Array.getElem?_toList, hrecords.names]
  refine ⟨hinverse, ⟨hnames, fun k => ?_⟩, ?_⟩
  · simp only [hinverse, hnames]
    constructor
    · rintro ⟨name, hname⟩
      exact (List.getElem?_eq_some_iff.1 hname).1
    · intro hlt
      exact ⟨_, List.getElem?_eq_getElem hlt⟩
  · rintro first others rfl name k
    have hlater : t = (KindTable.empty.run first).internAll
        ((KindTable.empty.run first).met others) := by
      rw [← KindTable.run_eq, ← KindTable.run_append]
    rw [hlater]
    exact ⟨KindTable.get?_internAll_of_get? _, KindTable.name?_internAll_of_name? _⟩

/-- A text is refused behind its second name.  Its first name stays in the table all the same,
between the names that were met before and afterwards. -/
theorem name_of_refused_text_keeps_its_kind :
    let calls : List KindTable.Call := [.intern "b", .read "a(b c)", .read "c"]
    let t := KindTable.empty.run calls
    (KindTable.empty.met calls).eraseDups = ["b", "a", "c"] ∧
      t.names.size ≤ 2 ^ 32 ∧
      t.get? "b" = some ⟨0⟩ ∧ t.get? "a" = some ⟨1⟩ ∧ t.get? "c" = some ⟨2⟩ ∧
      ∀ k, (∃ name, t.get? name = some k) ↔ k.tag.toNat < 3 := by
  intro calls t
  have hmet : KindTable.empty.met calls = ["b", "a", "b", "c"] := by rfl
  have hnames : (KindTable.empty.met calls).eraseDups = ["b", "a", "c"] := by
    rw [hmet]
    decide
  have hsize : t.names.size ≤ 2 ^ 32 := by
    rw [← (KindTable.records_run calls).size_eq, hnames]
    decide
  obtain ⟨hinverse, ⟨hplace, huse⟩, -⟩ := kinds_and_names_stay_inverse calls hsize
  rw [hnames] at hplace huse
  exact ⟨hnames, hsize, (hinverse "b" ⟨0⟩).2 (hplace ⟨0⟩), (hinverse "a" ⟨1⟩).2 (hplace ⟨1⟩),
    (hinverse "c" ⟨2⟩).2 (hplace ⟨2⟩), huse⟩

end TreeMatching
