import DnsResponder.Proofs.Rule.Layout

/-!
# Blame

A parser that fails names places, and the last of them is that of the word to *blame*.
What makes it the right one is said by the rows of words that the parser reads. No row
begins with the words in front of it and then itself, so the word is wrong where it
stands. And some row begins with the words in front of it, so nothing was wrong before.

The second half has an exception. In front of an IPv6 address all is well by the looks of
it, and yet there is no row that goes on from there, since no such address is taken.

A row is read word by word, so blame is laid word by word: either the first word is to
blame, or the words behind it are read and the blame lies there. Of two alternatives the
one that got further has the last word.
-/

namespace DnsResponder

/-! ## What complaints quote -/

namespace RuleError

/-- What a complaint quotes of the source, and where that stands. -/
def quote? : RuleError → Option (String × Nat)
  | unknownMnemonic _ token offset => some (token, offset)
  | badIpv4 literal offset => some (literal, offset)
  | ipv6 literal offset => some (literal, offset)
  | unusableType mnemonic offset => some (mnemonic, offset)
  | badName text _ offset => some (text, offset)
  | mismatch _ _ text offset => some (text, offset)
  | noAlternative _ => none
  | noProgress _ => none
  | custom _ => none

/-- The complaint quotes the token, where it stands. -/
def Quotes (e : RuleError) (t : Token) : Prop := e.quote? = some (t.value, t.start)

variable {e : RuleError} {t : Token}

theorem Quotes.offsets (h : e.Quotes t) : e.offsets = [t.start] := by
  cases e with
  | noAlternative _ => cases h
  | noProgress _ => cases h
  | custom _ => cases h
  | _ => exact congrArg ([·.2]) (Option.some.inj h)

/-- What quotes a token is no list of other complaints. -/
theorem Quotes.leaves (h : e.Quotes t) : e.leaves = [e] := by
  cases e with
  | noAlternative _ => cases h
  | _ => rfl

end RuleError

/-! ## Culprits -/

/-- Words can be written that `L` holds of. -/
def Viable (L : List Token → Prop) : Prop := ∃ ts, L ts ∧ ∀ t ∈ ts, t.Whole

theorem Viable.cons {L : List Token → Prop} {t : Token} (ht : t.Whole)
    (h : Viable fun ts => L (t :: ts)) : Viable L := by
  obtain ⟨ts, hts, hwhole⟩ := h
  exact ⟨t :: ts, hts, List.forall_mem_cons.mpr ⟨ht, hwhole⟩⟩

theorem Viable.imp {L L' : List Token → Prop} (h : Viable L) (hL : ∀ ts, L ts → L' ts) :
    Viable L' := by
  obtain ⟨ts, hts, hwhole⟩ := h
  exact ⟨ts, hL ts hts, hwhole⟩

/--
In the row, `t` is to blame for the complaint, where `L` holds of the rows that are
allowed: with `t` the words are wrong, and without it they are not, unless `E` says that
they lead nowhere.
-/
structure Culprit (L E : List Token → Prop) (row : List Token) (e : RuleError) (us : List Token)
    (t : Token) : Prop where
  stands : ∃ rest, row = us ++ t :: rest
  latest : e.offsets.max? = some t.start
  unfit : ∀ more, ¬L (us ++ t :: more)
  viable : E us ∨ Viable fun more => L (us ++ more)

variable {L L' E E' : List Token → Prop}

theorem Culprit.of_iff {row us : List Token} {e : RuleError} {t : Token}
    (h : Culprit L E row e us t) (hL : ∀ ts, L ts ↔ L' ts) (hE : ∀ ts, E ts → E' ts) :
    Culprit L' E' row e us t where
  stands := h.stands
  latest := h.latest
  unfit more hmore := h.unfit more ((hL _).mpr hmore)
  viable := by
    rcases h.viable with hlost | hviable
    · exact .inl (hE us hlost)
    · exact .inr (hviable.imp fun more => (hL (us ++ more)).mp)

/-- What is to blame among the words behind `u` is to blame in the whole row. -/
theorem Culprit.cons {row us : List Token} {e : RuleError} {t u : Token}
    (h : Culprit (fun ts => L (u :: ts)) (fun ts => E (u :: ts)) row e us t) :
    Culprit L E (u :: row) e (u :: us) t where
  stands := by
    obtain ⟨rest, hrest⟩ := h.stands
    exact ⟨rest, by rw [hrest, List.cons_append]⟩
  latest := h.latest
  unfit := h.unfit
  viable := h.viable

theorem start_lt_of_row {row us ts : List Token} {t u : Token}
    (hordered : row.Pairwise (·.start < ·.start)) (h : row = us ++ t :: ts) (hu : u ∈ ts) :
    t.start < u.start := by
  rw [h] at hordered
  exact List.rel_of_pairwise_cons (List.pairwise_append.mp hordered).2.1 hu

/-- Of two places in a row, either they are one or one of them comes first. -/
theorem place_cases {row as as' bs bs' : List Token} {t t' : Token}
    (hordered : row.Pairwise (·.start < ·.start)) (h : row = as ++ t :: bs)
    (h' : row = as' ++ t' :: bs') :
    (as = as' ∧ t = t') ∨ (t.start < t'.start ∧ ∃ ds, as' = as ++ t :: ds) ∨
      (t'.start < t.start ∧ ∃ ds, as = as' ++ t' :: ds) := by
  rcases List.append_eq_append_iff.mp (h.symm.trans h') with ⟨ds, has, hbs⟩ | ⟨ds, has, hbs⟩
  · cases ds with
    | nil =>
        rw [List.append_nil] at has
        exact .inl ⟨has.symm, (List.cons.inj hbs).1⟩
    | cons d ds =>
        obtain ⟨rfl, hds⟩ := List.cons.inj hbs
        have hmem : t' ∈ bs := by rw [hds]; exact List.mem_append_right ds List.mem_cons_self
        exact .inr (.inl ⟨start_lt_of_row hordered h hmem, ds, has⟩)
  · cases ds with
    | nil =>
        rw [List.append_nil] at has
        exact .inl ⟨has, (List.cons.inj hbs).1.symm⟩
    | cons d ds =>
        obtain ⟨rfl, hds⟩ := List.cons.inj hbs
        have hmem : t ∈ bs' := by rw [hds]; exact List.mem_append_right ds List.mem_cons_self
        exact .inr (.inr ⟨start_lt_of_row hordered h' hmem, ds, has⟩)

theorem max?_append {xs ys : List Nat} {x y : Nat} (hx : xs.max? = some x) (hy : ys.max? = some y) :
    (xs ++ ys).max? = some (max x y) := by
  obtain ⟨hxmem, hxle⟩ := List.max?_eq_some_iff.mp hx
  obtain ⟨hymem, hyle⟩ := List.max?_eq_some_iff.mp hy
  refine List.max?_eq_some_iff.mpr ⟨?_, ?_⟩
  · rcases Nat.le_total x y with h | h
    · rw [Nat.max_eq_right h]
      exact List.mem_append_right xs hymem
    · rw [Nat.max_eq_left h]
      exact List.mem_append_left ys hxmem
  · rw [List.forall_mem_append]
    constructor
    · intro z hz
      have hle := hxle z hz
      omega
    · intro z hz
      have hle := hyle z hz
      omega

namespace Parser

variable {α β : Type}

/-! ## When a combinator fails -/

section Failures

variable {p : Parser α} {q : Parser β} {c : Cursor} {e : RuleError}

theorem map_eq_error_iff {f : α → β} : (map f p c).1 = .error e ↔ (p c).1 = .error e := by
  unfold map tryMap
  rcases p c with ⟨e' | a, d⟩
  · simp [Except.bind]
  · simp [Except.bind]

theorem andThen_eq_error_iff {f : α → Parser β} :
    (andThen f p c).1 = .error e ↔
      (p c).1 = .error e ∨ ∃ a d, p c = (.ok a, d) ∧ (f a d).1 = .error e := by
  unfold andThen
  rcases p c with ⟨e' | a, d⟩
  · simp
  · simp

/-- When both of two alternatives fail, both complaints are kept. -/
theorem oneOf_eq_error {p q : Parser α} (h : (oneOf [p, q] c).1 = .error e) :
    ∃ e₁ e₂, (p c).1 = .error e₁ ∧ (q c).1 = .error e₂ ∧ e = .noAlternative [e₁, e₂] := by
  unfold oneOf firstOf at h
  rcases hp : p c with ⟨e₁ | a, d⟩
  · rw [hp] at h
    dsimp only at h
    unfold firstOf at h
    rcases hq : q c with ⟨e₂ | b, d'⟩
    · rw [hq] at h
      exact ⟨e₁, e₂, rfl, rfl, (Except.error.inj h).symm⟩
    · rw [hq] at h
      cases h
  · rw [hp] at h
    cases h

theorem tryMap_ok (p : Parser α) : tryMap .ok p = p := by
  funext c
  unfold tryMap
  rcases p c with ⟨e | a, d⟩
  · rfl
  · rfl

/-- The word is of the kind, and the change accepts it. -/
def Takes (kind : Token.Kind) (f : Token → Except RuleError α) (t : Token) : Prop :=
  t.kind = kind ∧ ∃ a, f t = .ok a

/-- The word is of another kind, or the change rejects it. -/
inductive Refuses (kind : Token.Kind) (f : Token → Except RuleError α) (t : Token) :
    RuleError → Prop where
  | otherKind : t.kind ≠ kind → Refuses kind f t (.mismatch kind t.kind t.value t.start)
  | rejected {e : RuleError} : t.kind = kind → f t = .error e → Refuses kind f t e

section Refuses

variable {kind : Token.Kind} {f : Token → Except RuleError α} {t : Token}

theorem Refuses.not_takes (h : Refuses kind f t e) : ¬Takes kind f t := by
  rintro ⟨hkind, a, ha⟩
  cases h with
  | otherKind hne => exact hne hkind
  | rejected _ herror =>
      rw [ha] at herror
      cases herror

theorem Refuses.quotes (h : Refuses kind f t e) (hf : ∀ {e}, f t = .error e → e.Quotes t) :
    e.Quotes t := by
  cases h with
  | otherKind _ => rfl
  | rejected _ herror => exact hf herror

theorem refuses_of_error (h : (tryMap f (expect kind) c).1 = .error e) :
    Refuses kind f c.skipComments.next.1 e := by
  unfold tryMap at h
  by_cases hkind : c.skipComments.next.1.kind = kind
  · rw [expect_eq_ok_iff.mpr ⟨rfl, hkind⟩] at h
    exact .rejected hkind h
  · rw [expect_of_ne hkind] at h
    obtain rfl := Except.error.inj h
    exact .otherKind hkind

end Refuses

end Failures

/-! How parsers are grouped makes no difference to what they do. -/

theorem andThen_andThen {α β γ : Type} (g : β → Parser γ) (f : α → Parser β) (p : Parser α) :
    andThen g (andThen f p) = andThen (fun a => andThen g (f a)) p := by
  funext c
  simp only [andThen]
  rcases p c with ⟨e | a, d⟩
  · rfl
  · rfl

theorem andThen_map {α β γ : Type} (g : β → Parser γ) (f : α → β) (p : Parser α) :
    andThen g (map f p) = andThen (fun a => g (f a)) p := by
  funext c
  unfold andThen map tryMap
  rcases p c with ⟨e | a, d⟩
  · rfl
  · rfl

/-! ## Failing on a row -/

/-- Wherever `p` fails, `F` holds of the row of words ahead and the complaint. -/
def Fails (p : Parser α) (F : List Token → RuleError → Prop) : Prop :=
  ∀ (c : Cursor) (e : RuleError), c.Fits → (p c).1 = .error e → F c.row e

namespace Fails

variable {p : Parser α} {F : List Token → RuleError → Prop} {kind : Token.Kind}
  {f : Token → Except RuleError α}

theorem map {g : α → β} (hp : Fails p F) : Fails (Parser.map g p) F :=
  fun c e hfits h => hp c e hfits (map_eq_error_iff.mp h)

/-- A parser for one word fails on the first word of the row. -/
theorem word (hF : ∀ t rest e, Refuses kind f t e → F (t :: rest) e) :
    Fails (tryMap f (Parser.expect kind)) F := by
  intro c e hfits h
  obtain ⟨rest, hrow⟩ := hfits.row_eq_cons
  rw [hrow]
  exact hF _ rest e (refuses_of_error h)

/-- Where a word is read, what fails next fails on the row behind it. -/
theorem behind {g : α → Parser β} (hkind : kind ≠ .eof)
    (hword : Fails (tryMap f (Parser.expect kind)) F)
    (hg : ∀ t a, t.kind = kind → f t = .ok a → Fails (g a) fun rest => F (t :: rest)) :
    Fails (andThen g (tryMap f (Parser.expect kind))) F := by
  intro c e hfits h
  rcases andThen_eq_error_iff.mp h with hfirst | ⟨a, d, hfirst, hsecond⟩
  · exact hword c e hfits hfirst
  · obtain ⟨t, ht, ha⟩ := tryMap_eq_ok_iff.mp hfirst
    obtain ⟨hnext, hk⟩ := expect_eq_ok_iff.mp ht
    have hend : c.skipComments.next.1.kind ≠ .eof := by
      rw [hnext, hk]
      exact hkind
    have hrow := Cursor.row_of_word hend
    have hd := hfits.of_reaches (c.reaches_skipComments.trans c.skipComments.reaches_next)
    rw [hnext] at hrow hd
    rw [hrow]
    exact hg t a hk ha d e hd hsecond

/-- A kind of word that is expected takes every word of that kind. -/
theorem expect (hF : ∀ t rest, t.kind ≠ kind →
    F (t :: rest) (.mismatch kind t.kind t.value t.start)) : Fails (Parser.expect kind) F := by
  rw [← tryMap_ok (Parser.expect kind)]
  refine word fun t rest e h => ?_
  cases h with
  | otherKind hne => exact hF t rest hne
  | rejected _ herror => cases herror

end Fails

/-! ## Laying the blame -/

/-- Wherever `p` fails, some word is to blame. -/
def Blames (p : Parser α) (L E : List Token → Prop) : Prop :=
  ∀ (c : Cursor) (e : RuleError), c.Fits → (p c).1 = .error e → ∃ us t, Culprit L E c.row e us t

namespace Blames

variable {p : Parser α} {q : Parser β}

theorem of_iff (hp : Blames p L E) (hL : ∀ ts, L ts ↔ L' ts) (hE : ∀ ts, E ts → E' ts) :
    Blames p L' E' := by
  intro c e hfits h
  obtain ⟨us, t, hculprit⟩ := hp c e hfits h
  exact ⟨us, t, hculprit.of_iff hL hE⟩

theorem iff_fails : Blames p L E ↔ Fails p fun row e => ∃ us t, Culprit L E row e us t := Iff.rfl

theorem map {f : α → β} (hp : Blames p L E) : Blames (Parser.map f p) L E :=
  iff_fails.mpr (iff_fails.mp hp).map

/-- A word is to blame itself when no row may begin with it. -/
theorem word {kind : Token.Kind} {f : Token → Except RuleError α}
    (hf : ∀ {t e}, f t = .error e → e.Quotes t)
    (hhead : ∀ t ts, L (t :: ts) → Takes kind f t)
    (hviable : E [] ∨ Viable L) : Blames (tryMap f (expect kind)) L E := by
  refine iff_fails.mpr (.word fun t rest e h =>
    ⟨[], t, ⟨rest, rfl⟩, ?_, fun more hmore => ?_, hviable⟩)
  · rw [(h.quotes hf).offsets]
    rfl
  · exact h.not_takes (hhead t more hmore)

/-- Where a word is read, the blame is laid behind it. -/
theorem behind {kind : Token.Kind} {f : Token → Except RuleError α} {g : α → Parser β}
    (hkind : kind ≠ .eof) (hword : Blames (tryMap f (expect kind)) L E)
    (hg : ∀ t a, t.kind = kind → f t = .ok a →
      Blames (g a) (fun ts => L (t :: ts)) fun ts => E (t :: ts)) :
    Blames (andThen g (tryMap f (expect kind))) L E := by
  refine iff_fails.mpr (.behind hkind (iff_fails.mp hword) fun t a hk ha c e hfits h => ?_)
  obtain ⟨us, u, hculprit⟩ := hg t a hk ha c e hfits h
  exact ⟨t :: us, u, hculprit.cons⟩

theorem expect {kind : Token.Kind} (hhead : ∀ t ts, L (t :: ts) → t.kind = kind)
    (hviable : E [] ∨ Viable L) : Blames (expect kind) L E := by
  rw [← tryMap_ok (Parser.expect kind)]
  refine word (fun h => ?_) (fun t ts h => ⟨hhead t ts h, t, rfl⟩) hviable
  cases h

/-- Of two alternatives that fail, the one that got further is right about the word to blame. -/
theorem oneOf {q : Parser α} {M F : List Token → Prop} (hp : Blames p L E) (hq : Blames q M F) :
    Blames (oneOf [p, q]) (fun ts => L ts ∨ M ts) fun ts => E ts ∨ F ts := by
  intro c e hfits h
  obtain ⟨e₁, e₂, h₁, h₂, rfl⟩ := oneOf_eq_error h
  obtain ⟨us, t, hus⟩ := hp c e₁ hfits h₁
  obtain ⟨vs, u, hvs⟩ := hq c e₂ hfits h₂
  obtain ⟨rest, hrow⟩ := hus.stands
  obtain ⟨rest', hrow'⟩ := hvs.stands
  have hmax : (RuleError.noAlternative [e₁, e₂]).offsets.max? = some (max t.start u.start) := by
    show (e₁.offsets ++ (e₂.offsets ++ [])).max? = _
    rw [List.append_nil]
    exact max?_append hus.latest hvs.latest
  have hleft : (E us ∨ F us) ∨ Viable fun more => L (us ++ more) ∨ M (us ++ more) := by
    rcases hus.viable with hlost | hviable
    · exact .inl (.inl hlost)
    · exact .inr (hviable.imp fun _ => .inl)
  have hright : (E vs ∨ F vs) ∨ Viable fun more => L (vs ++ more) ∨ M (vs ++ more) := by
    rcases hvs.viable with hlost | hviable
    · exact .inl (.inr hlost)
    · exact .inr (hviable.imp fun _ => .inr)
  rcases place_cases hfits.row_starts.2 hrow hrow' with
    ⟨rfl, rfl⟩ | ⟨hlt, ds, rfl⟩ | ⟨hlt, ds, rfl⟩
  · rw [Nat.max_self] at hmax
    refine ⟨us, t, ⟨rest, hrow⟩, hmax, ?_, hleft⟩
    rintro more (hL | hM)
    · exact hus.unfit more hL
    · exact hvs.unfit more hM
  · -- the word that the first alternative blames is passed by the second, so it is the later word
    rw [Nat.max_eq_right (Nat.le_of_lt hlt)] at hmax
    refine ⟨_, u, ⟨rest', hrow'⟩, hmax, ?_, hright⟩
    rintro more (hL | hM)
    · rw [List.append_assoc, List.cons_append] at hL
      exact hus.unfit _ hL
    · exact hvs.unfit more hM
  · rw [Nat.max_eq_left (Nat.le_of_lt hlt)] at hmax
    refine ⟨_, t, ⟨rest, hrow⟩, hmax, ?_, hleft⟩
    rintro more (hL | hM)
    · exact hus.unfit more hL
    · rw [List.append_assoc, List.cons_append] at hM
      exact hvs.unfit _ hM

end Blames

end Parser

/-! ## The grammar -/

/-- The words are a sentence that means the rule. -/
def Spells (ts : List Token) (r : Rule) : Prop := ∃ x : Sentence, x.Spelt ts ∧ x.Means r

/-- The words are a rule. -/
def IsRule (ts : List Token) : Prop := ∃ r, Spells ts r

/-- The words are what may stand behind the arrow of a rule. -/
def IsResponse (ts : List Token) : Prop := ∃ r, ∃ v : Verdict, v.Spelt ts ∧ v.Means r

/-- The words are a record in a rule. -/
def IsFound (ts : List Token) : Prop :=
  ∃ t v c type data, ts = [t, v, c] ∧ t.Says (RecordType.mnemonic type) ∧ v.kind = .text ∧
    ValueMeans type v.value data ∧ Parser.Takes .text Grammar.classOf c

/-- The words end with an arrow and the type of an IPv6 address. -/
def AsksAaaa (ts : List Token) : Prop :=
  ∃ front a t, ts = front ++ [a, t] ∧ a.kind = .arrow ∧ t.Says "AAAA"

namespace Grammar

open DnsResponder.Parser

theorem quotes_of_typeOf {t : Token} {e : RuleError} (h : typeOf t = .error e) : e.Quotes t := by
  unfold typeOf at h
  split at h
  · cases h
  · cases h
    rfl

theorem quotes_of_classOf {t : Token} {e : RuleError} (h : classOf t = .error e) : e.Quotes t := by
  unfold classOf at h
  split at h
  · cases h
  · cases h
    rfl

theorem quotes_of_nameOf {t : Token} {e : RuleError} (h : nameOf t = .error e) : e.Quotes t := by
  unfold nameOf at h
  split at h
  · cases h
  · cases h
    rfl

theorem quotes_of_valueOf {type : RecordType} {t : Token} {e : RuleError}
    (h : valueOf type t = .error e) : e.Quotes t := by
  unfold valueOf at h
  split at h
  · unfold ipv4Of at h
    split at h
    · cases h
    · cases h
      rfl
  · cases h
    rfl
  · cases h

theorem isRule_iff {ts : List Token} :
    IsRule ts ↔ ∃ t n c a rest, ts = t :: n :: c :: a :: rest ∧ Takes .text typeOf t ∧
      Takes .text nameOf n ∧ Takes .text classOf c ∧ a.kind = .arrow ∧ IsResponse rest := by
  constructor
  · rintro ⟨r, x, ⟨ht, hn, hc, ha, hv⟩, hmeans⟩
    have hname := hmeans.name
    rw [← hn.2] at hname
    exact ⟨_, _, _, _, _, rfl, ⟨ht.1, _, typeOf_eq_ok_iff.mpr ht.2⟩,
      ⟨hn.1, _, nameOf_eq_ok_iff.mpr hname⟩, ⟨hc.1, _, classOf_eq_ok_iff.mpr hc.2⟩, ha,
      _, _, hv, hmeans.response⟩
  · rintro ⟨t, n, c, a, rest, rfl, ⟨htk, type, ht⟩, ⟨hnk, name, hn⟩, ⟨hck, class_, hc⟩, ha,
      r, v, hv, hmeans⟩
    exact ⟨⟨name, type.code, class_.code, r⟩, ⟨type, n.value, class_, v⟩,
      .intro ⟨htk, typeOf_eq_ok_iff.mp ht⟩ ⟨hnk, rfl⟩ ⟨hck, classOf_eq_ok_iff.mp hc⟩ ha hv,
      rfl, nameOf_eq_ok_iff.mp hn, rfl, hmeans⟩

theorem isResponse_iff {ts : List Token} :
    IsResponse ts ↔ (∃ d, ts = [d] ∧ d.kind = .dash) ∨ IsFound ts := by
  constructor
  · rintro ⟨r, h⟩
    rcases verdict_iff.mpr h with
      ⟨d, hts, hd, -⟩ | ⟨t, v, c, type, class_, data, hts, ht, hv, hmeans, hc, -⟩
    · exact .inl ⟨d, hts, hd⟩
    · have hclass := classOf_eq_ok_iff.mpr hc.2
      exact .inr ⟨t, v, c, type, data, hts, ht, hv, hmeans, hc.1, class_, hclass⟩
  · rintro (⟨d, hts, hd⟩ | ⟨t, v, c, type, data, hts, ht, hv, hmeans, hck, class_, hclass⟩)
    · exact ⟨_, verdict_iff.mp (.inl ⟨d, hts, hd, rfl⟩)⟩
    · have hc := classOf_eq_ok_iff.mp hclass
      exact ⟨_, verdict_iff.mp
        (.inr ⟨t, v, c, type, class_, data, hts, ht, hv, hmeans, ⟨hck, hc⟩, rfl⟩)⟩

/-- The type that a token names in front of a value. There are values of four types. -/
def valueTypeOf (t : Token) : Except RuleError RecordType :=
  match typeOf t with
  | .error e => .error e
  | .ok type =>
      if type ∈ valueTypes then .ok type
      else .error (.unusableType type.mnemonic t.start)

theorem quotes_of_valueTypeOf {t : Token} {e : RuleError} (h : valueTypeOf t = .error e) :
    e.Quotes t := by
  unfold valueTypeOf at h
  split at h
  · rename_i e' ht
    cases h
    exact quotes_of_typeOf ht
  · rename_i type ht
    split at h
    · cases h
    · obtain rfl := Except.error.inj h
      unfold RuleError.Quotes
      rw [typeOf_eq_ok_iff.mp ht]
      rfl

/-- A type of which there are no values is refused where it stands, so it may be refused at once. -/
theorem typedValue_eq :
    typedValue =
      andThen (fun type => map (fun data => (type, data)) (value type 0))
        (tryMap valueTypeOf (expect .text)) := by
  funext c
  unfold typedValue andThen tryMap
  rcases expect .text c with ⟨e | t, d⟩
  · rfl
  · dsimp only [Except.bind]
    unfold valueTypeOf
    rcases typeOf t with e | type
    · rfl
    · cases type
      all_goals rfl

/-! ### Words to go on with -/

/-- A word that is written nowhere. -/
def spare (kind : Token.Kind) (text : String) : Token := ⟨kind, 0, 0, text⟩

theorem takes_spare_type : Takes .text typeOf (spare .text "A") := ⟨rfl, .a, rfl⟩

theorem takes_spare_class : Takes .text classOf (spare .text "IN") := ⟨rfl, .internet, rfl⟩

theorem takes_spare_name : Takes .text nameOf (spare .text "A") := by
  have hname : (nameOf (spare .text "A")).toOption.isSome = true := by decide +kernel
  rcases h : nameOf (spare .text "A") with e | name
  · rw [h] at hname
    cases hname
  · exact ⟨rfl, name, h⟩

theorem whole_spare_text : (spare .text "A").Whole := ⟨by decide, 'A', [], rfl, rfl, rfl⟩

theorem whole_spare_value : (spare .text "0.0.0.0").Whole :=
  ⟨by decide, '0', ['.', '0', '.', '0', '.', '0'], rfl, rfl, rfl⟩

theorem whole_spare_class : (spare .text "IN").Whole := ⟨by decide, 'I', ['N'], rfl, rfl, rfl⟩

theorem whole_spare_arrow : (spare .arrow "->").Whole := ⟨by decide, '-', ['>'], rfl, rfl, rfl⟩

theorem whole_spare_dash : (spare .dash "-").Whole := ⟨by decide, '-', [], rfl, rfl, rfl⟩

/-! ### Records -/

section Records

variable {t v : Token} {type : RecordType} {ts : List Token}

theorem isFound_cons_iff (ht : t.Says type.mnemonic) :
    IsFound (t :: ts) ↔ ∃ v c data, ts = [v, c] ∧ v.kind = .text ∧ ValueMeans type v.value data ∧
      Takes .text classOf c := by
  constructor
  · rintro ⟨t', v, c, type', data, hts, ht', hv, hmeans, hc⟩
    obtain ⟨rfl, rfl⟩ := List.cons.inj hts
    obtain rfl := RecordType.mnemonic_injective (ht.unique ht')
    exact ⟨v, c, data, rfl, hv, hmeans, hc⟩
  · rintro ⟨v, c, data, rfl, hv, hmeans, hc⟩
    exact ⟨t, v, c, type, data, rfl, ht, hv, hmeans, hc⟩

theorem takes_valueTypeOf (h : IsFound (t :: ts)) : Takes .text valueTypeOf t := by
  obtain ⟨t', v, c, type, data, hts, ht, -, hmeans, -⟩ := h
  obtain ⟨rfl, -⟩ := List.cons.inj hts
  refine ⟨ht.1, type, ?_⟩
  unfold valueTypeOf
  rw [typeOf_eq_ok_iff.mpr ht.2]
  exact if_pos (mem_of_valueMeans hmeans)

theorem says_of_valueTypeOf (hkind : t.kind = .text) (h : valueTypeOf t = .ok type) :
    t.Says type.mnemonic ∧ type ∈ valueTypes := by
  unfold valueTypeOf at h
  split at h
  · cases h
  · rename_i type' ht
    split at h
    · rename_i hmem
      cases h
      exact ⟨⟨hkind, typeOf_eq_ok_iff.mp ht⟩, hmem⟩
    · cases h

/-- What is an address may be any other value, and for one of the types nothing may. -/
theorem exists_valueMeans (h : type ∈ valueTypes) :
    type = .aaaa ∨ ∃ data, ValueMeans type "0.0.0.0" data := by
  have haddress : (⟨0, 0, 0, 0⟩ : Ipv4).text = "0.0.0.0" := by decide +kernel
  cases type
  case a =>
    rw [← haddress]
    exact .inr ⟨_, .address _⟩
  case aaaa => exact .inl rfl
  case cname => exact .inr ⟨_, .alias _⟩
  case txt => exact .inr ⟨_, .text _⟩
  all_goals exact absurd h (by decide)

theorem viable_behind_value {data : Bytes} (ht : t.Says type.mnemonic) (hv : v.kind = .text)
    (hmeans : ValueMeans type v.value data) : Viable fun ts => IsFound (t :: v :: ts) := by
  refine .cons whole_spare_class ⟨[], ?_, List.forall_mem_nil _⟩
  exact (isFound_cons_iff ht).mpr ⟨v, _, data, rfl, hv, hmeans, takes_spare_class⟩

theorem viable_behind_type (ht : t.Says type.mnemonic) (hmem : type ∈ valueTypes) :
    type = .aaaa ∨ Viable fun ts => IsFound (t :: ts) := by
  rcases exists_valueMeans hmem with haaaa | ⟨data, hmeans⟩
  · exact .inl haaaa
  · exact .inr (.cons whole_spare_value (viable_behind_value ht rfl hmeans))

/-- Behind the type stand a value of it and a class. -/
theorem blames_behind_type (ht : t.Says type.mnemonic) (hmem : type ∈ valueTypes) :
    Blames (andThen (fun data => map (fun c => ((type, data), c)) recordClass) (value type 0))
      (fun ts => IsFound (t :: ts)) fun ts => ts = [] ∧ t.Says "AAAA" := by
  rw [value_of_mem hmem]
  refine .behind (by decide) (.word quotes_of_valueOf (fun v ts h => ?_) ?_)
    fun v data hv h => .map (.word quotes_of_classOf (fun c ts h => ?_) ?_)
  · obtain ⟨v', c, data, hts, hv, hmeans, -⟩ := (isFound_cons_iff ht).mp h
    obtain ⟨rfl, -⟩ := List.cons.inj hts
    exact ⟨hv, data, (valueOf_eq_ok_iff hmem).mpr hmeans⟩
  · rcases viable_behind_type ht hmem with rfl | hviable
    · exact .inl ⟨rfl, ht⟩
    · exact .inr hviable
  · obtain ⟨v', c', data, hts, -, -, hc⟩ := (isFound_cons_iff ht).mp h
    obtain ⟨rfl, rfl⟩ := List.cons.inj (List.cons.inj hts).2
    exact hc
  · exact .inr (viable_behind_value ht hv ((valueOf_eq_ok_iff hmem).mp h))

end Records

/-- A record is wrong at its first wrong word, where a type without values counts as wrong. -/
theorem blames_found : Blames found IsFound fun ts => ∃ t, ts = [t] ∧ t.Says "AAAA" := by
  unfold found pair
  rw [typedValue_eq, andThen_andThen]
  simp only [andThen_map]
  refine .map (.behind (by decide) ?_ fun t type hkind h => ?_)
  · have hsays : (spare .text "A").Says (RecordType.mnemonic .a) := ⟨rfl, rfl⟩
    have hviable := (viable_behind_type hsays (by decide)).resolve_left (by decide)
    exact .word quotes_of_valueTypeOf (fun t ts h => takes_valueTypeOf h)
      (.inr (hviable.cons whole_spare_text))
  · obtain ⟨ht, hmem⟩ := says_of_valueTypeOf hkind h
    refine (blames_behind_type ht hmem).of_iff (fun ts => Iff.rfl) ?_
    rintro ts ⟨rfl, ht⟩
    exact ⟨t, rfl, ht⟩

/-! ### Rules -/

theorem viable_isResponse : Viable IsResponse := by
  refine .cons whole_spare_dash ⟨[], ?_, List.forall_mem_nil _⟩
  exact isResponse_iff.mpr (.inl ⟨_, rfl, rfl⟩)

theorem blames_response : Blames response IsResponse fun ts => ∃ t, ts = [t] ∧ t.Says "AAAA" := by
  have hrefusal : Blames refusal (fun ts => ∃ d, ts = [d] ∧ d.kind = .dash) fun _ => False := by
    refine .map (.expect (fun d ts h => ?_) (.inr ?_))
    · obtain ⟨d', hts, hd⟩ := h
      obtain ⟨rfl, -⟩ := List.cons.inj hts
      exact hd
    · exact .cons whole_spare_dash ⟨[], ⟨_, rfl, rfl⟩, List.forall_mem_nil _⟩
  refine (hrefusal.oneOf blames_found).of_iff (fun ts => isResponse_iff.symm) ?_
  rintro ts (hfalse | haaaa)
  · exact False.elim hfalse
  · exact haaaa

section Rules

variable {t n c a : Token}

theorem viable_behind_class (ht : Takes .text typeOf t) (hn : Takes .text nameOf n)
    (hc : Takes .text classOf c) : Viable fun ts => IsRule (t :: n :: c :: ts) := by
  refine .cons whole_spare_arrow (viable_isResponse.imp fun ts hts => ?_)
  exact isRule_iff.mpr ⟨t, n, c, _, ts, rfl, ht, hn, hc, rfl, hts⟩

theorem viable_behind_name (ht : Takes .text typeOf t) (hn : Takes .text nameOf n) :
    Viable fun ts => IsRule (t :: n :: ts) :=
  .cons whole_spare_class (viable_behind_class ht hn takes_spare_class)

theorem viable_behind_question_type (ht : Takes .text typeOf t) :
    Viable fun ts => IsRule (t :: ts) :=
  .cons whole_spare_text (viable_behind_name ht takes_spare_name)

theorem viable_isRule : Viable IsRule :=
  .cons whole_spare_text (viable_behind_question_type takes_spare_type)

theorem blames_question_type : Blames recordType IsRule AsksAaaa := by
  refine .word quotes_of_typeOf (fun t ts h => ?_) (.inr viable_isRule)
  obtain ⟨t', n, c, a, rest, hts, ht, -⟩ := isRule_iff.mp h
  obtain ⟨rfl, -⟩ := List.cons.inj hts
  exact ht

theorem blames_name (ht : Takes .text typeOf t) :
    Blames domainName (fun ts => IsRule (t :: ts)) fun ts => AsksAaaa (t :: ts) := by
  refine .word quotes_of_nameOf (fun n ts h => ?_)
    (.inr (viable_behind_question_type ht))
  obtain ⟨t', n', c, a, rest, hts, -, hn, -⟩ := isRule_iff.mp h
  simp only [List.cons.injEq] at hts
  obtain ⟨-, rfl, -⟩ := hts
  exact hn

theorem blames_question_class (ht : Takes .text typeOf t) (hn : Takes .text nameOf n) :
    Blames recordClass (fun ts => IsRule (t :: n :: ts)) fun ts => AsksAaaa (t :: n :: ts) := by
  refine .word quotes_of_classOf (fun c ts h => ?_)
    (.inr (viable_behind_name ht hn))
  obtain ⟨t', n', c', a, rest, hts, -, -, hc, -⟩ := isRule_iff.mp h
  simp only [List.cons.injEq] at hts
  obtain ⟨-, -, rfl, -⟩ := hts
  exact hc

theorem blames_arrow (ht : Takes .text typeOf t) (hn : Takes .text nameOf n)
    (hc : Takes .text classOf c) :
    Blames (expect .arrow) (fun ts => IsRule (t :: n :: c :: ts))
      fun ts => AsksAaaa (t :: n :: c :: ts) := by
  refine .expect (fun a ts h => ?_) (.inr (viable_behind_class ht hn hc))
  obtain ⟨t', n', c', a', rest, hts, -, -, -, ha, -⟩ := isRule_iff.mp h
  simp only [List.cons.injEq] at hts
  obtain ⟨-, -, -, rfl, -⟩ := hts
  exact ha

theorem blames_behind_arrow (ht : Takes .text typeOf t) (hn : Takes .text nameOf n)
    (hc : Takes .text classOf c) (ha : a.kind = .arrow) :
    Blames response (fun ts => IsRule (t :: n :: c :: a :: ts))
      fun ts => AsksAaaa (t :: n :: c :: a :: ts) := by
  refine blames_response.of_iff (fun ts => ⟨fun h => ?_, fun h => ?_⟩) ?_
  · exact isRule_iff.mpr ⟨t, n, c, a, ts, rfl, ht, hn, hc, ha, h⟩
  · obtain ⟨t', n', c', a', rest, hts, -, -, -, -, hrest⟩ := isRule_iff.mp h
    simp only [List.cons.injEq] at hts
    obtain ⟨-, -, -, -, rfl⟩ := hts
    exact hrest
  · rintro ts ⟨b, rfl, hb⟩
    exact ⟨[t, n, c], a, b, rfl, ha, hb⟩

end Rules

/-- A rule is wrong at its first wrong word. -/
theorem blames_rule : Blames rule IsRule AsksAaaa := by
  unfold rule subject pair
  rw [← tryMap_ok (expect .arrow)]
  simp only [andThen_andThen, andThen_map]
  refine .map (.behind (by decide) blames_question_type fun t type htk ht => ?_)
  have ht : Takes .text typeOf t := ⟨htk, type, ht⟩
  refine .behind (by decide) (blames_name ht) fun n name hnk hn => ?_
  have hn : Takes .text nameOf n := ⟨hnk, name, hn⟩
  refine .behind (by decide) (blames_question_class ht hn) fun c class_ hck hc => .map ?_
  have hc : Takes .text classOf c := ⟨hck, class_, hc⟩
  have harrow := blames_arrow ht hn hc
  rw [← tryMap_ok (expect .arrow)] at harrow
  exact .behind (by decide) harrow fun a a' ha _ => .map (blames_behind_arrow ht hn hc ha)

end Grammar

end DnsResponder
