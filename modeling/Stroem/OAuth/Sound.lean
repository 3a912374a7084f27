import Stroem.Foundation.Slots
import Stroem.OAuth.Effect

/-!
# The tables of the token endpoint

What holds between any two statements, in three parts: the codes with the history of the tokens,
the rows of the tokens, and what the calls hold.
-/

namespace Stroem.OAuth

open Foundation

variable {phase : Phase} {row : TokenRow} {s s' : State} {call : Nat}

/-! ## Codes and the history -/

structure CodesSound (s : State) : Prop where
  linear : Linear s.issued
  grantedOnce : ∀ grant ∈ s.authorized, ∀ grant' ∈ s.authorized,
    grant.codeHash = grant'.codeHash → grant = grant'
  codesKeyed : Keyed (·.codeHash) s.codes
  codeGranted : ∀ row ∈ s.codes, row.grant ∈ s.authorized
  codeUser : ∀ row ∈ s.codes, row.userId ∈ s.users
  firstGranted : ∀ code item, IsFirst s.issued code item →
    ∃ grant ∈ s.authorized, grant.codeHash = code
  firstSpent : ∀ code item, IsFirst s.issued code item → ∀ row ∈ s.codes, row.codeHash = code →
    row.usedAt.isSome = true

def Owned (s : State) (row : TokenRow) : Prop :=
  Born s.issued row.tokenHash ∧ ∀ code, Descends s.issued row.tokenHash code →
    ⟨code, row.clientId, row.userId⟩ ∈ s.authorized

structure TokensSound (s : State) : Prop where
  tokensKeyed : Keyed (·.tokenHash) s.tokens
  tokenOwned : ∀ row ∈ s.tokens, Owned s row
  liveLast : ∀ row ∈ s.tokens, row.revokedAt = none →
    ∀ child, ¬IsChild s.issued row.tokenHash child

def Phase.spentHash (phase : Phase) : Option String := phase.spent.map (·.codeHash)

def Phase.heldHash (phase : Phase) : Option String := phase.held.map (·.tokenHash)

structure CallsSound (s : State) : Prop where
  callGranted : ∀ phase ∈ s.calls, ∀ row, phase.code = some row → row.grant ∈ s.authorized
  callSpent : ∀ phase ∈ s.calls, ∀ row, phase.spent = some row →
    (∀ r ∈ s.codes, r.codeHash = row.codeHash → r.usedAt.isSome = true) ∧
      ∀ item, ¬IsFirst s.issued row.codeHash item
  spentOnce : ClaimedOnce Phase.spentHash s.calls
  callOwned : ∀ phase ∈ s.calls, ∀ row, phase.token = some row → Owned s row
  heldLive : ∀ phase ∈ s.calls, ∀ row, phase.held = some row →
    ∃ r ∈ s.tokens, r.tokenHash = row.tokenHash ∧ r.revokedAt = none
  heldOnce : ClaimedOnce Phase.heldHash s.calls

structure Sound (s : State) : Prop where
  codes : CodesSound s
  tokens : TokensSound s
  calls : CallsSound s

/-! ## Phases -/

theorem Phase.code_of_spent {row : CodeRow} (h : phase.spent = some row) :
    phase.code = some row := by
  cases phase <;> first | exact h | cases h

theorem Phase.token_of_held (h : phase.held = some row) :
    phase.token = some row := by
  cases phase <;> first | exact h | cases h

theorem Phase.Empty.spent (h : phase.Empty) : phase.spent = none := by
  rw [Option.eq_none_iff_forall_ne_some]
  intro row hrow
  have hcode := (Phase.code_of_spent hrow).symm.trans h.1
  cases hcode

theorem Phase.Empty.held (h : phase.Empty) : phase.held = none := by
  rw [Option.eq_none_iff_forall_ne_some]
  intro row hrow
  have htoken := (Phase.token_of_held hrow).symm.trans h.2
  cases htoken

theorem locked_of_held (hphase : phase ∈ s.calls)
    (h : phase.held = some row) : s.locked row.tokenHash = true := by
  refine List.any_eq_true.mpr ⟨phase, hphase, ?_⟩
  cases phase with
  | rotating held _ =>
    cases h
    exact beq_self_eq_true _
  | _ => cases h

/-! ## Owned tokens -/

theorem Owned.of_authorized (h : Owned s row) (grant : Grant)
    (codes : List CodeRow) (tokens : List TokenRow) (calls : List Phase) :
    Owned { s with codes, tokens, calls, authorized := grant :: s.authorized } row :=
  ⟨h.1, fun code hcode => List.mem_cons_of_mem _ (h.2 code hcode)⟩

theorem Owned.of_issued (h : Owned s row)
    (hlinear : Linear s.issued) {item : String} {origin : Origin String String}
    (hfresh : ¬Born s.issued item) (hissued : s'.issued = ⟨item, origin⟩ :: s.issued)
    (hauthorized : s'.authorized = s.authorized) : Owned s' row := by
  have hne : row.tokenHash ≠ item := fun heq => hfresh (heq ▸ h.1)
  unfold Owned
  rw [hissued, hauthorized]
  refine ⟨?_, fun code hcode => ?_⟩
  · obtain ⟨birth, hbirth, heq⟩ := h.1
    exact ⟨birth, List.mem_cons_of_mem _ hbirth, heq⟩
  · exact h.2 code ((Linear.descends_cons_iff hlinear hfresh hne).mp hcode)

theorem Owned.congr {row' : TokenRow} (h : Owned s row)
    (hhash : row'.tokenHash = row.tokenHash) (hclient : row'.clientId = row.clientId)
    (huser : row'.userId = row.userId) : Owned s row' := by
  unfold Owned
  rw [hhash, hclient, huser]
  exact h

/-! ## The parts are kept -/

theorem grant_ite {p : Prop} [Decidable p] (row : CodeRow) (now : Time) :
    (if p then { row with usedAt := some now } else row).grant = row.grant := by
  split <;> rfl

theorem userId_ite {p : Prop} [Decidable p] (row : CodeRow) (now : Time) :
    (if p then { row with usedAt := some now } else row).userId = row.userId := by
  split <;> rfl

theorem codes_effect {e : Event} (h : Sound s) (he : Effect s e s') :
    CodesSound s' := by
  obtain ⟨hcodes, htokens, hcalls⟩ := h
  cases he with
  | people clients users husers =>
    exact ⟨hcodes.linear, hcodes.grantedOnce, hcodes.codesKeyed, hcodes.codeGranted,
      fun row hrow => husers row.userId (hcodes.codeUser row hrow),
      hcodes.firstGranted, hcodes.firstSpent⟩
  | deleted clients users code token husers hfree =>
    refine ⟨hcodes.linear, hcodes.grantedOnce,
      hcodes.codesKeyed.sublist (List.filter_sublist.map _),
      fun row hrow => hcodes.codeGranted row (List.mem_of_mem_filter hrow),
      fun row hrow => ?_, hcodes.firstGranted, fun code item hfirst row hrow =>
        hcodes.firstSpent code item hfirst row (List.mem_of_mem_filter hrow)⟩
    obtain ⟨hrow, hkept⟩ := List.mem_filter.mp hrow
    exact husers row (Bool.not_eq_true' _ ▸ hkept) (hcodes.codeUser row hrow)
  | authorized row hfresh huser =>
    refine ⟨hcodes.linear, ?_, ?_, ?_, ?_, ?_, ?_⟩
    · intro grant hgrant grant' hgrant' heq
      obtain rfl | hgrant := List.mem_cons.mp hgrant
      · obtain rfl | hgrant' := List.mem_cons.mp hgrant'
        · rfl
        · exact absurd heq.symm (hfresh grant' hgrant')
      · obtain rfl | hgrant' := List.mem_cons.mp hgrant'
        · exact absurd heq (hfresh grant hgrant)
        · exact hcodes.grantedOnce grant hgrant grant' hgrant' heq
    · refine hcodes.codesKeyed.append (List.nodup_singleton _) fun r hr new hnew => ?_
      obtain rfl := List.mem_singleton.mp hnew
      exact hfresh r.grant (hcodes.codeGranted r hr)
    · intro r hr
      obtain hr | hr := List.mem_append.mp hr
      · exact List.mem_cons_of_mem _ (hcodes.codeGranted r hr)
      · rw [List.mem_singleton.mp hr]
        exact List.mem_cons_self
    · intro r hr
      obtain hr | hr := List.mem_append.mp hr
      · exact hcodes.codeUser r hr
      · rw [List.mem_singleton.mp hr]
        exact huser
    · intro code item hfirst
      obtain ⟨grant, hgrant, heq⟩ := hcodes.firstGranted code item hfirst
      exact ⟨grant, List.mem_cons_of_mem _ hgrant, heq⟩
    · intro code item hfirst r hr hhash
      obtain hr | hr := List.mem_append.mp hr
      · exact hcodes.firstSpent code item hfirst r hr hhash
      · obtain rfl := List.mem_singleton.mp hr
        obtain ⟨grant, hgrant, heq⟩ := hcodes.firstGranted code item hfirst
        exact absurd (heq.trans hhash.symm) (hfresh grant hgrant)
  | requested | moved | locked | revoked =>
    exact ⟨hcodes.linear, hcodes.grantedOnce, hcodes.codesKeyed, hcodes.codeGranted,
      hcodes.codeUser, hcodes.firstGranted, hcodes.firstSpent⟩
  | spent call row now new hcall hunused hnew =>
    refine ⟨hcodes.linear, hcodes.grantedOnce, hcodes.codesKeyed.updateWhere fun _ => rfl, ?_,
      ?_, hcodes.firstGranted, ?_⟩
    · intro r hr
      obtain ⟨old, hold, rfl⟩ := mem_updateWhere.mp hr
      rw [grant_ite]
      exact hcodes.codeGranted old hold
    · intro r hr
      obtain ⟨old, hold, rfl⟩ := mem_updateWhere.mp hr
      rw [userId_ite]
      exact hcodes.codeUser old hold
    · intro code item hfirst r hr hhash
      obtain ⟨old, hold, rfl⟩ := mem_updateWhere.mp hr
      by_cases hunused : isUnused row.codeHash now old = true
      · rw [if_pos hunused]
        rfl
      · rw [if_neg hunused] at hhash ⊢
        exact hcodes.firstSpent code item hfirst old hold hhash
  | issued call row token new hcall hfresh howner hnew =>
    have hmem := List.mem_of_getElem? hcall
    obtain ⟨hspent, hnone⟩ := hcalls.callSpent _ hmem row rfl
    have hgrant : row.grant ∈ s.authorized := hcalls.callGranted _ hmem row rfl
    refine ⟨hcodes.linear.cons hfresh ?_ ?_, hcodes.grantedOnce, hcodes.codesKeyed,
      hcodes.codeGranted, hcodes.codeUser, ?_, ?_⟩
    · intro root hroot other hfirst
      obtain rfl := Origin.root.inj hroot
      exact hnone other hfirst
    · exact fun parent hparent => (by cases hparent)
    · intro code item hfirst
      obtain heq | hfirst := List.mem_cons.mp hfirst
      · obtain rfl := Origin.root.inj (Birth.mk.inj heq).2
        exact ⟨row.grant, hgrant, rfl⟩
      · exact hcodes.firstGranted code item hfirst
    · intro code item hfirst
      obtain heq | hfirst := List.mem_cons.mp hfirst
      · obtain rfl := Origin.root.inj (Birth.mk.inj heq).2
        exact hspent
      · exact hcodes.firstSpent code item hfirst
  | rotated call row startedAt token new hevent hcall hfresh howner hnew =>
    have hmem := List.mem_of_getElem? hcall
    have hborn : Born s.issued row.tokenHash := (hcalls.callOwned _ hmem row rfl).1
    obtain ⟨held, hheld, hhash, hlive⟩ := hcalls.heldLive _ hmem row rfl
    have hold : ∀ code item, IsFirst (⟨token.tokenHash, .parent row.tokenHash⟩ :: s.issued)
        code item → IsFirst s.issued code item := by
      intro code item hfirst
      obtain heq | hfirst := List.mem_cons.mp hfirst
      · cases (Birth.mk.inj heq).2
      · exact hfirst
    refine ⟨hcodes.linear.cons hfresh ?_ ?_, hcodes.grantedOnce, hcodes.codesKeyed,
      hcodes.codeGranted, hcodes.codeUser,
      fun code item hfirst => hcodes.firstGranted code item (hold _ _ hfirst),
      fun code item hfirst => hcodes.firstSpent code item (hold _ _ hfirst)⟩
    · exact fun root hroot => (by cases hroot)
    · intro parent hparent
      obtain rfl := Origin.parent.inj hparent
      exact ⟨hborn, hhash ▸ htokens.liveLast held hheld hlive⟩

theorem Sound.hash_ne (h : Sound s) {item : String} (hfresh : ¬Born s.issued item) :
    ∀ row ∈ s.tokens, row.tokenHash ≠ item :=
  fun row hrow heq => hfresh (heq ▸ (h.tokens.tokenOwned row hrow).1)

theorem tokens_insert (h : Sound s) (p : TokenRow → Bool) (now : Time)
    {token : TokenRow} {origin : Origin String String} (hfresh : ¬Born s.issued token.tokenHash)
    (hissued : s'.issued = ⟨token.tokenHash, origin⟩ :: s.issued)
    (hauthorized : s'.authorized = s.authorized)
    (htokens : s'.tokens = updateWhere p (revoke now) s.tokens ++ [token])
    (howned : Owned s' token) (hself : origin ≠ .parent token.tokenHash)
    (hparent : ∀ row ∈ s.tokens, origin = .parent row.tokenHash → p row = true) :
    TokensSound s' := by
  have hrows : ∀ row ∈ s'.tokens, row = token ∨
      ∃ old ∈ s.tokens, (if p old then revoke now old else old) = row := by
    intro row hrow
    rw [htokens, List.mem_append, List.mem_singleton] at hrow
    exact hrow.symm.imp_right mem_updateWhere.mp
  refine ⟨?_, fun row hrow => ?_, fun row hrow hlive child hchild => ?_⟩
  · rw [htokens]
    have hone : Keyed (·.tokenHash) [token] := List.nodup_singleton _
    have hkept : Keyed (·.tokenHash) (updateWhere p (revoke now) s.tokens) :=
      h.tokens.tokensKeyed.updateWhere fun _ => rfl
    refine hkept.append hone fun row hrow new hnew => ?_
    obtain rfl := List.mem_singleton.mp hnew
    obtain ⟨old, hold, rfl⟩ := mem_updateWhere.mp hrow
    have hne := h.hash_ne hfresh old hold
    split <;> exact hne
  · obtain rfl | ⟨old, hold, rfl⟩ := hrows row hrow
    · exact howned
    · have hissuedOwned : Owned s' old :=
        (h.tokens.tokenOwned old hold).of_issued h.codes.linear hfresh hissued hauthorized
      split
      · exact hissuedOwned.congr rfl rfl rfl
      · exact hissuedOwned
  · rw [IsChild, hissued, List.mem_cons] at hchild
    obtain rfl | ⟨old, hold, rfl⟩ := hrows row hrow
    · -- the new token has no successor yet
      obtain heq | hchild := hchild
      · exact hself (Birth.mk.inj heq).2.symm
      · exact hfresh (h.codes.linear.parentBorn _ _ hchild)
    · by_cases hp : p old = true
      · rw [if_pos hp] at hlive
        cases hlive
      · rw [if_neg hp] at hlive hchild
        obtain heq | hchild := hchild
        · exact hp (hparent old hold (Birth.mk.inj heq).2.symm)
        · exact h.tokens.liveLast old hold hlive child hchild

theorem tokens_effect {e : Event} (h : Sound s) (he : Effect s e s') :
    TokensSound s' := by
  have htokens := h.tokens
  cases he with
  | people | requested | moved | spent | locked =>
    exact ⟨htokens.tokensKeyed, htokens.tokenOwned, htokens.liveLast⟩
  | deleted clients users code token husers hfree =>
    exact ⟨htokens.tokensKeyed.sublist (List.filter_sublist.map _),
      fun row hrow => htokens.tokenOwned row (List.mem_of_mem_filter hrow),
      fun row hrow => htokens.liveLast row (List.mem_of_mem_filter hrow)⟩
  | authorized row hfresh huser =>
    exact ⟨htokens.tokensKeyed,
      fun r hr => (htokens.tokenOwned r hr).of_authorized row.grant _ _ _, htokens.liveLast⟩
  | issued call row token new hcall hfresh howner hnew =>
    have hgrant := h.calls.callGranted _ (List.mem_of_getElem? hcall) row rfl
    have hsame : updateWhere (fun _ => false) (revoke 0) s.tokens = s.tokens :=
      updateWhere_eq_self fun _ _ hfalse => absurd hfalse Bool.false_ne_true
    refine tokens_insert h (fun _ => false) 0 hfresh rfl rfl ?_ ?_ nofun nofun
    · rw [hsame]
    · refine ⟨⟨_, List.mem_cons_self, rfl⟩, fun code hcode => ?_⟩
      obtain rfl := (Linear.descends_first_iff hfresh).mp hcode
      rw [howner.1, howner.2]
      exact hgrant
  | rotated call row startedAt token new hevent hcall hfresh howner hnew =>
    obtain ⟨hborn, hgranted⟩ := h.calls.callOwned _ (List.mem_of_getElem? hcall) row rfl
    refine tokens_insert h _ _ hfresh rfl rfl rfl ?_ ?_ ?_
    · refine ⟨⟨_, List.mem_cons_self, rfl⟩, fun code hcode => ?_⟩
      rw [howner.1, howner.2]
      exact hgranted code ((Linear.descends_child_iff h.codes.linear hfresh hborn).mp hcode)
    · exact fun heq => hfresh (Origin.parent.inj heq ▸ hborn)
    · exact fun old _ heq => beq_iff_eq.mpr (Origin.parent.inj heq).symm
  | revoked call row targets now success hcall hfree =>
    refine ⟨htokens.tokensKeyed.updateWhere fun _ => rfl, fun r hr => ?_,
      fun r hr hlive => ?_⟩
    · obtain ⟨old, hold, rfl⟩ := mem_updateWhere.mp hr
      split
      · exact (htokens.tokenOwned old hold).congr rfl rfl rfl
      · exact htokens.tokenOwned old hold
    · obtain ⟨old, hold, rfl⟩ := mem_updateWhere.mp hr
      split at hlive
      · cases hlive
      · next hnot =>
        rw [if_neg hnot]
        exact htokens.liveLast old hold hlive

theorem forall_mem_set {calls : List Phase} {new : Phase} {P : Phase → Prop}
    (hold : ∀ phase ∈ calls, P phase) (hnew : P new) : ∀ phase ∈ calls.set call new, P phase := by
  intro phase hphase
  obtain hphase | rfl := List.mem_or_eq_of_mem_set hphase
  · exact hold phase hphase
  · exact hnew

theorem Phase.Empty.code_ne (h : phase.Empty) {row : CodeRow} :
    phase.code ≠ some row := by
  rw [h.1]
  exact nofun

theorem Phase.Empty.token_ne (h : phase.Empty) :
    phase.token ≠ some row := by
  rw [h.2]
  exact nofun

theorem Phase.spentHash_eq_some {codeHash : String}
    (h : phase.spentHash = some codeHash) :
    ∃ row, phase.spent = some row ∧ row.codeHash = codeHash :=
  Option.map_eq_some_iff.mp h

theorem Phase.heldHash_eq_some {tokenHash : String}
    (h : phase.heldHash = some tokenHash) :
    ∃ row, phase.held = some row ∧ row.tokenHash = tokenHash :=
  Option.map_eq_some_iff.mp h

theorem Phase.Empty.spentHash (h : phase.Empty) : phase.spentHash = none := by
  rw [Phase.spentHash, h.spent]
  rfl

theorem Phase.Empty.heldHash (h : phase.Empty) : phase.heldHash = none := by
  rw [Phase.heldHash, h.held]
  rfl

theorem calls_moved (h : Sound s) {old new : Phase}
    (hcall : s.calls[call]? = some old) (hfollows : Follows s old new) :
    CallsSound (s.move call new) := by
  have hcalls := h.calls
  have hmem := List.mem_of_getElem? hcall
  refine ⟨forall_mem_set hcalls.callGranted fun row hrow => ?_,
    forall_mem_set hcalls.callSpent fun row hrow => ?_,
    hcalls.spentOnce.set_of_imp hcall fun codeHash hhash => ?_,
    forall_mem_set hcalls.callOwned fun row hrow => ?_,
    forall_mem_set hcalls.heldLive fun row hrow => ?_,
    hcalls.heldOnce.set_of_imp hcall fun tokenHash hhash => ?_⟩
  · obtain hrow | hrow := hfollows.code row hrow
    · exact hcalls.callGranted old hmem row hrow
    · exact h.codes.codeGranted row hrow
  · exact hcalls.callSpent old hmem row (hfollows.spent row hrow)
  · obtain ⟨row, hrow, rfl⟩ := Phase.spentHash_eq_some hhash
    rw [Phase.spentHash, hfollows.spent row hrow]
    rfl
  · obtain hrow | hrow := hfollows.token row hrow
    · exact hcalls.callOwned old hmem row hrow
    · exact h.tokens.tokenOwned row hrow
  · rw [hfollows.held] at hrow
    cases hrow
  · rw [Phase.heldHash, hfollows.held] at hhash
    cases hhash

theorem calls_spent (h : Sound s) {row : CodeRow} {now : Time}
    {new : Phase} (hcall : s.calls[call]? = some (.codeChecked row))
    (hunused : ∃ r ∈ s.codes, isUnused row.codeHash now r = true)
    (hnew : new = .codeSpent row ∨ new.Empty) :
    CallsSound { s with
      codes := updateWhere (isUnused row.codeHash now) (fun r => { r with usedAt := some now })
        s.codes
      calls := s.calls.set call new } := by
  have hcalls := h.calls
  have hmem := List.mem_of_getElem? hcall
  obtain ⟨unused, hin, hunused⟩ := hunused
  have hparts : unused.codeHash = row.codeHash ∧ unused.usedAt = none := by
    unfold isUnused at hunused
    rw [Bool.and_eq_true, Bool.and_eq_true, beq_iff_eq, Option.isNone_iff_eq_none] at hunused
    exact hunused.1
  have hnotSpent : ¬(∀ r ∈ s.codes, r.codeHash = row.codeHash → r.usedAt.isSome = true) := by
    intro hspent
    have hsome := hspent unused hin hparts.1
    rw [hparts.2] at hsome
    cases hsome
  have hspent : ∀ codeHash, (∀ r ∈ s.codes, r.codeHash = codeHash → r.usedAt.isSome = true) →
      ∀ r ∈ updateWhere (isUnused row.codeHash now) (fun r => { r with usedAt := some now })
        s.codes, r.codeHash = codeHash → r.usedAt.isSome = true := by
    intro codeHash hold r hr hhash
    obtain ⟨r₀, hr₀, rfl⟩ := mem_updateWhere.mp hr
    by_cases hp : isUnused row.codeHash now r₀ = true
    · rw [if_pos hp]
      rfl
    · rw [if_neg hp] at hhash ⊢
      exact hold r₀ hr₀ hhash
  refine ⟨forall_mem_set hcalls.callGranted fun r hr => ?_,
    forall_mem_set (fun phase hphase r hr => ?_) fun r hr => ?_,
    hcalls.spentOnce.set_of_free fun codeHash hhash phase hphase hother => ?_,
    forall_mem_set hcalls.callOwned fun r hr => ?_,
    forall_mem_set hcalls.heldLive fun r hr => ?_,
    hcalls.heldOnce.set_of_imp hcall fun tokenHash hhash => ?_⟩
  · obtain rfl | hempty := hnew
    · cases hr
      exact hcalls.callGranted _ hmem row rfl
    · exact absurd hr hempty.code_ne
  · obtain ⟨hold, hnone⟩ := hcalls.callSpent phase hphase r hr
    exact ⟨hspent r.codeHash hold, hnone⟩
  · obtain rfl | hempty := hnew
    · cases hr
      refine ⟨fun r hr hhash => ?_, fun item hfirst => ?_⟩
      · obtain ⟨r₀, hr₀, rfl⟩ := mem_updateWhere.mp hr
        have hsame : r₀.codeHash = row.codeHash := by
          split at hhash <;> exact hhash
        obtain rfl := h.codes.codesKeyed.eq_of_key hr₀ hin (hsame.trans hparts.1.symm)
        rw [if_pos hunused]
        rfl
      · exact hnotSpent (h.codes.firstSpent row.codeHash item hfirst)
    · exact absurd (Phase.code_of_spent hr) hempty.code_ne
  · obtain rfl | hempty := hnew
    · cases hhash
      obtain ⟨other, hspentOther, hcode⟩ := Phase.spentHash_eq_some hother
      have hall := (hcalls.callSpent phase hphase other hspentOther).1
      rw [show other.codeHash = row.codeHash from hcode] at hall
      exact hnotSpent hall
    · rw [hempty.spentHash] at hhash
      cases hhash
  · obtain rfl | hempty := hnew
    · cases hr
    · exact absurd hr hempty.token_ne
  · obtain rfl | hempty := hnew
    · cases hr
    · exact absurd (Phase.token_of_held hr) hempty.token_ne
  · obtain rfl | hempty := hnew
    · cases hhash
    · rw [hempty.heldHash] at hhash
      cases hhash

theorem calls_issued (h : Sound s) {row : CodeRow} {token : TokenRow}
    {new : Phase} (hcall : s.calls[call]? = some (.codeMinted row))
    (hfresh : ¬Born s.issued token.tokenHash) (hnew : new.Empty) :
    CallsSound { s with
      tokens := s.tokens ++ [token]
      issued := ⟨token.tokenHash, .root row.codeHash⟩ :: s.issued
      calls := s.calls.set call new } := by
  have hcalls := h.calls
  refine ⟨forall_mem_set hcalls.callGranted fun r hr => absurd hr hnew.code_ne, ?_,
    hcalls.spentOnce.set_of_imp hcall fun codeHash hhash => ?_,
    forall_mem_set (fun phase hphase r hr => ?_) fun r hr => absurd hr hnew.token_ne,
    forall_mem_set (fun phase hphase r hr => ?_) fun r hr => ?_,
    hcalls.heldOnce.set_of_imp hcall fun tokenHash hhash => ?_⟩
  · intro phase hphase r hr
    have hhash : phase.spentHash = some r.codeHash := by
      rw [Phase.spentHash, hr]
      rfl
    obtain ⟨hne, hold⟩ := hcalls.spentOnce.ne_of_mem_set hcall rfl hnew.spentHash hphase hhash
    obtain ⟨hspent, hnone⟩ := hcalls.callSpent phase hold r hr
    refine ⟨hspent, fun item hfirst => ?_⟩
    obtain heq | hfirst := List.mem_cons.mp hfirst
    · exact hne (Origin.root.inj (Birth.mk.inj heq).2)
    · exact hnone item hfirst
  · rw [hnew.spentHash] at hhash
    cases hhash
  · exact (hcalls.callOwned phase hphase r hr).of_issued h.codes.linear hfresh rfl rfl
  · obtain ⟨held, hheld, hlive⟩ := hcalls.heldLive phase hphase r hr
    exact ⟨held, List.mem_append_left _ hheld, hlive⟩
  · exact absurd (Phase.token_of_held hr) hnew.token_ne
  · rw [hnew.heldHash] at hhash
    cases hhash

theorem calls_locked (h : Sound s) {now : Time}
    (hcall : s.calls[call]? = some (.tokenMinted row)) (hfree : s.locked row.tokenHash = false)
    (hlive : ∃ r ∈ s.tokens, r.tokenHash = row.tokenHash ∧ r.revokedAt = none) :
    CallsSound (s.move call (.rotating row now)) := by
  have hcalls := h.calls
  refine ⟨forall_mem_set hcalls.callGranted nofun, forall_mem_set hcalls.callSpent nofun,
    hcalls.spentOnce.set_of_imp hcall nofun, forall_mem_set hcalls.callOwned fun r hr => ?_,
    forall_mem_set hcalls.heldLive fun r hr => ?_,
    hcalls.heldOnce.set_of_free fun tokenHash hhash phase hphase hother => ?_⟩
  · cases hr
    exact hcalls.callOwned _ (List.mem_of_getElem? hcall) row rfl
  · cases hr
    exact hlive
  · cases hhash
    obtain ⟨held, hheld, heq⟩ := Phase.heldHash_eq_some hother
    have hlocked := locked_of_held hphase hheld
    rw [heq] at hlocked
    exact absurd (hlocked.symm.trans hfree) (by decide)

theorem calls_rotated (h : Sound s) {startedAt : Time}
    {token : TokenRow} {new : Phase} (hcall : s.calls[call]? = some (.rotating row startedAt))
    (hfresh : ¬Born s.issued token.tokenHash) (hnew : new.Empty) :
    CallsSound { s with
      tokens := updateWhere (·.tokenHash == row.tokenHash) (revoke startedAt) s.tokens ++ [token]
      issued := ⟨token.tokenHash, .parent row.tokenHash⟩ :: s.issued
      calls := s.calls.set call new } := by
  have hcalls := h.calls
  refine ⟨forall_mem_set hcalls.callGranted fun r hr => absurd hr hnew.code_ne,
    forall_mem_set (fun phase hphase r hr => ?_)
      fun r hr => absurd (Phase.code_of_spent hr) hnew.code_ne,
    hcalls.spentOnce.set_of_imp hcall fun codeHash hhash => ?_,
    forall_mem_set (fun phase hphase r hr => ?_) fun r hr => absurd hr hnew.token_ne, ?_,
    hcalls.heldOnce.set_of_imp hcall fun tokenHash hhash => ?_⟩
  · obtain ⟨hspent, hnone⟩ := hcalls.callSpent phase hphase r hr
    refine ⟨hspent, fun item hfirst => ?_⟩
    obtain heq | hfirst := List.mem_cons.mp hfirst
    · cases (Birth.mk.inj heq).2
    · exact hnone item hfirst
  · rw [hnew.spentHash] at hhash
    cases hhash
  · exact (hcalls.callOwned phase hphase r hr).of_issued h.codes.linear hfresh rfl rfl
  · intro phase hphase r hr
    have hhash : phase.heldHash = some r.tokenHash := by
      rw [Phase.heldHash, hr]
      rfl
    obtain ⟨hne, hold⟩ := hcalls.heldOnce.ne_of_mem_set hcall rfl hnew.heldHash hphase hhash
    obtain ⟨held, hheld, heq, hlive⟩ := hcalls.heldLive phase hold r hr
    have hother : ¬((held.tokenHash == row.tokenHash) = true) := by
      rw [beq_iff_eq, heq]
      exact hne
    exact ⟨held, List.mem_append_left _ (mem_updateWhere.mpr ⟨held, hheld, if_neg hother⟩),
      heq, hlive⟩
  · rw [hnew.heldHash] at hhash
    cases hhash

theorem calls_revoked (h : Sound s)
    {targets : List String} {now : Time} {success : Bool}
    (hcall : s.calls[call]? = some (.revoking row targets))
    (hfree : ∀ target ∈ targets, s.locked target = false) :
    CallsSound { s with
      tokens := updateWhere
        (fun token => targets.contains token.tokenHash && token.revokedAt.isNone) (revoke now)
        s.tokens
      calls := s.calls.set call (.reuseAnswered row success) } := by
  have hcalls := h.calls
  refine ⟨forall_mem_set hcalls.callGranted nofun, forall_mem_set hcalls.callSpent nofun,
    hcalls.spentOnce.set_of_imp hcall nofun, forall_mem_set hcalls.callOwned fun r hr => ?_,
    forall_mem_set (fun phase hphase r hr => ?_) nofun,
    hcalls.heldOnce.set_of_imp hcall nofun⟩
  · cases hr
    exact hcalls.callOwned _ (List.mem_of_getElem? hcall) row rfl
  · obtain ⟨held, hheld, heq, hlive⟩ := hcalls.heldLive phase hphase r hr
    have hnot : ¬((targets.contains held.tokenHash && held.revokedAt.isNone) = true) := by
      rw [Bool.and_eq_true, List.contains_iff_mem]
      rintro ⟨htarget, -⟩
      have hlocked := locked_of_held hphase hr
      rw [← heq, hfree _ htarget] at hlocked
      cases hlocked
    exact ⟨held, mem_updateWhere.mpr ⟨held, hheld, if_neg hnot⟩, heq, hlive⟩

theorem calls_effect {e : Event} (h : Sound s) (he : Effect s e s') :
    CallsSound s' := by
  have hcalls := h.calls
  cases he with
  | people =>
    exact ⟨hcalls.callGranted, hcalls.callSpent, hcalls.spentOnce, hcalls.callOwned,
      hcalls.heldLive, hcalls.heldOnce⟩
  | deleted clients users code token husers hfree =>
    refine ⟨hcalls.callGranted, fun phase hphase row hrow => ?_, hcalls.spentOnce,
      hcalls.callOwned, fun phase hphase row hrow => ?_, hcalls.heldOnce⟩
    · obtain ⟨hspent, hnone⟩ := hcalls.callSpent phase hphase row hrow
      exact ⟨fun r hr => hspent r (List.mem_of_mem_filter hr), hnone⟩
    · obtain ⟨held, hheld, heq, hlive⟩ := hcalls.heldLive phase hphase row hrow
      have hlocked := locked_of_held hphase hrow
      rw [← heq] at hlocked
      refine ⟨held, List.mem_filter.mpr ⟨hheld, ?_⟩, heq, hlive⟩
      rw [Bool.not_eq_true']
      by_contra hdeleted
      have hfree := hfree held hheld (Bool.not_eq_false _ ▸ hdeleted)
      exact absurd (hlocked.symm.trans hfree) (by decide)
  | authorized row hfresh huser =>
    refine ⟨fun phase hphase r hr =>
        List.mem_cons_of_mem _ (hcalls.callGranted phase hphase r hr),
      fun phase hphase r hr => ?_, hcalls.spentOnce,
      fun phase hphase r hr => (hcalls.callOwned phase hphase r hr).of_authorized row.grant _ _ _,
      hcalls.heldLive, hcalls.heldOnce⟩
    obtain ⟨hspent, hnone⟩ := hcalls.callSpent phase hphase r hr
    refine ⟨fun other hother hhash => ?_, hnone⟩
    obtain hother | hother := List.mem_append.mp hother
    · exact hspent other hother hhash
    · obtain rfl := List.mem_singleton.mp hother
      have hgrant := hcalls.callGranted phase hphase r (Phase.code_of_spent hr)
      exact absurd hhash.symm (hfresh r.grant hgrant)
  | requested phase hempty =>
    have hall : ∀ {P : Phase → Prop}, (∀ p ∈ s.calls, P p) → P phase →
        ∀ p ∈ s.calls ++ [phase], P p := by
      intro P hold hnew p hp
      obtain hp | hp := List.mem_append.mp hp
      · exact hold p hp
      · rwa [List.mem_singleton.mp hp]
    exact ⟨hall hcalls.callGranted fun row hrow => absurd hrow hempty.code_ne,
      hall hcalls.callSpent fun row hrow => absurd (Phase.code_of_spent hrow) hempty.code_ne,
      hcalls.spentOnce.append hempty.spentHash,
      hall hcalls.callOwned fun row hrow => absurd hrow hempty.token_ne,
      hall hcalls.heldLive fun row hrow => absurd (Phase.token_of_held hrow) hempty.token_ne,
      hcalls.heldOnce.append hempty.heldHash⟩
  | moved call old new hcall hfollows => exact calls_moved h hcall hfollows
  | spent call row now new hcall hunused hnew => exact calls_spent h hcall hunused hnew
  | issued call row token new hcall hfresh howner hnew => exact calls_issued h hcall hfresh hnew
  | locked call row now hcall hfree hlive => exact calls_locked h hcall hfree hlive
  | rotated call row startedAt token new hevent hcall hfresh howner hnew =>
    exact calls_rotated h hcall hfresh hnew
  | revoked call row targets now success hcall hfree => exact calls_revoked h hcall hfree

/-! ## Runs -/

theorem sound_init : Sound {} := by
  have hcodes : ∀ {P : CodeRow → Prop}, ∀ row ∈ ([] : List CodeRow), P row :=
    fun row h => absurd h List.not_mem_nil
  have htokens : ∀ {P : TokenRow → Prop}, ∀ row ∈ ([] : List TokenRow), P row :=
    fun row h => absurd h List.not_mem_nil
  have hcalls : ∀ {P : Phase → Prop}, ∀ phase ∈ ([] : List Phase), P phase :=
    fun phase h => absurd h List.not_mem_nil
  have hfirst : ∀ code item, ¬IsFirst ([] : Lineage String String) code item :=
    fun code item h => absurd h List.not_mem_nil
  refine ⟨⟨.nil, fun grant h => absurd h List.not_mem_nil, List.nodup_nil, hcodes,
    hcodes, fun code item h => absurd h (hfirst code item),
    fun code item h => absurd h (hfirst code item)⟩,
    ⟨List.nodup_nil, htokens, htokens⟩, ⟨hcalls, hcalls, .nil, hcalls, hcalls, .nil⟩⟩

theorem sound_step {crypto : Crypto} {e : Event} (h : Sound s)
    (hstep : step crypto s e = some s') : Sound s' :=
  have he := step_effect hstep
  ⟨codes_effect h he, tokens_effect h he, calls_effect h he⟩

theorem sound_of_exec {crypto : Crypto} {events : List Event} (h : Sound s)
    (hrun : exec (step crypto) s events = some s') : Sound s' :=
  exec_invariant Sound (fun _ _ _ hs _ hstep => sound_step hs hstep) h
    (Meets.of_forall (fun _ _ => trivial) s events) hrun

end Stroem.OAuth
