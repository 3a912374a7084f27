import Stroem.OAuth.Sound

/-!
# One live refresh token per authorization

Every code has at most one initial token and every token at most one successor, so that at most
one unrevoked token descends from a code.  A request that a check refuses has changed nothing:
what it ended as tells what its steps did.
-/

namespace Stroem.OAuth

open Foundation

/-! ## The tokens of a code -/

structure OneLive (s : State) : Prop where
  oneInitial : ∀ code item item', IsFirst s.issued code item → IsFirst s.issued code item' →
    item = item'
  oneSuccessor : ∀ parent item item', IsChild s.issued parent item →
    IsChild s.issued parent item' → item = item'
  oneLive : ∀ code, ∀ row ∈ s.tokens, ∀ row' ∈ s.tokens,
    row.revokedAt = none → row'.revokedAt = none →
    Descends s.issued row.tokenHash code → Descends s.issued row'.tokenHash code → row = row'

theorem Sound.oneLive {s : State} (h : Sound s) : OneLive s := by
  refine ⟨h.codes.linear.oneFirst, h.codes.linear.oneChild, ?_⟩
  intro code row hrow row' hrow' hlive hlive' hdescends hdescends'
  refine h.tokens.tokensKeyed.eq_of_key hrow hrow' ?_
  exact h.codes.linear.last_unique hdescends hdescends' (h.tokens.liveLast row hrow hlive)
    (h.tokens.liveLast row' hrow' hlive')

/-- A code whose user is gone is gone as well, so that the look for the user, which comes after
the code is consumed, fails only when there is no code left. -/
def GoneWithUser (s : State) : Prop :=
  ∀ (call : Nat) (row : CodeRow), s.calls[call]? = some (.codeSpent row) → row.userId ∉ s.users →
    ∀ r ∈ s.codes, r.codeHash ≠ row.codeHash

theorem Sound.goneWithUser {s : State} (h : Sound s) : GoneWithUser s := by
  intro call row hcall hgone r hr hhash
  have hgrant := h.calls.callGranted _ (List.mem_of_getElem? hcall) row rfl
  have hsame := h.codes.grantedOnce _ (h.codes.codeGranted r hr) _ hgrant hhash
  have huser : r.userId = row.userId := congrArg Grant.userId hsame
  exact hgone (huser ▸ h.codes.codeUser r hr)

/-! ## The steps of a call -/

def EveryStep (crypto : Crypto) (events : List Event) (call : Nat) (Q : State → State → Prop) :
    Prop :=
  ∀ before e mid next, before ++ [e] <+: events → exec (step crypto) {} before = some mid →
    step crypto mid e = some next → e.call = some call → Q mid next

def Untouched (s s' : State) : Prop :=
  s'.codes = s.codes ∧ s'.tokens = s.tokens

def OnlyRevokes (s s' : State) : Prop :=
  s'.codes = s.codes ∧ ∃ p now, (∀ row, p row = true → row.revokedAt = none) ∧
    s'.tokens = updateWhere p (revoke now) s.tokens

def Phase.clean : Phase → Bool
  | .exchange .. | .codeLoaded .. | .codeChecked _ | .refresh .. | .clientKnown .. | .reuseFound _
  | .revoking .. | .tokenCurrent _ | .tokenMinted _ | .rotating .. | .refused _ => true
  | .codeSpent _ | .codeMinted _ | .granted _ | .reuseAnswered .. | .failed _ => false

def Phase.mild (phase : Phase) : Bool :=
  match phase with
  | .reuseAnswered .. => true
  | phase => phase.clean

theorem Phase.mild_of_clean {phase : Phase} (h : phase.clean = true) : phase.mild = true := by
  cases phase <;> first | exact h | cases h

theorem Untouched.onlyRevokes {s s' : State} (h : Untouched s s') : OnlyRevokes s s' := by
  refine ⟨h.1, fun _ => false, 0, nofun, ?_⟩
  rw [h.2]
  exact (updateWhere_eq_self fun _ _ hfalse => absurd hfalse Bool.false_ne_true).symm

theorem move_untouched (s : State) (call : Nat) (phase : Phase) :
    Untouched s (s.move call phase) :=
  ⟨rfl, rfl⟩

theorem getElem?_set_of_some {calls : List Phase} {call : Nat} {phase : Phase}
    (hcall : calls[call]? = some phase) (new : Phase) :
    (calls.set call new)[call]? = some new :=
  List.getElem?_set_self (List.getElem?_eq_some_iff.mp hcall).1

theorem revokeDone_onlyRevokes {s s' : State} {call : Nat} {row : TokenRow}
    {targets : List String} {now : Time} {lost : Bool}
    (h : revokeDone s call row targets now lost = some s') : OnlyRevokes s s' := by
  unfold revokeDone at h
  split at h
  · cases h
  · obtain rfl := Option.some.inj h
    refine ⟨rfl, _, now, fun token htoken => ?_, rfl⟩
    rw [Bool.and_eq_true, Option.isNone_iff_eq_none] at htoken
    exact htoken.2

structure Harmless (s s' : State) (old new : Phase) : Prop where
  clean : old.clean = true
  onlyRevokes : OnlyRevokes s s'
  untouched : new.clean = true → Untouched s s'

theorem harmless_move {s : State} {call : Nat} {old new phase : Phase}
    (h : old.clean = true) : Harmless s (s.move call phase) old new :=
  ⟨h, (move_untouched s call phase).onlyRevokes, fun _ => move_untouched s call phase⟩

theorem callStep_harmless {crypto : Crypto} {s s' : State} {old new : Phase} {call : Nat}
    {e : Event} (hcall : s.calls[call]? = some old) (hstep : callStep crypto s old call e = some s')
    (hnew : s'.calls[call]? = some new) (hmild : new.mild = true) : Harmless s s' old new := by
  have hset := fun other => getElem?_set_of_some hcall other
  cases e with
  | getUnused | checkCode | authenticate | get | revokeStart | mint =>
    cases old <;> cases hstep
    exact harmless_move rfl
  | loadUser =>
    cases old <;> cases hstep
    rw [State.move, hset] at hnew
    obtain rfl := Option.some.inj hnew
    split at hmild <;> cases hmild
  | consume c now lost =>
    cases old with
    | codeChecked row =>
      simp only [callStep, consume] at hstep
      split at hstep
      · obtain rfl := Option.some.inj hstep
        rw [hset] at hnew
        obtain rfl := Option.some.inj hnew
        cases lost <;> cases hmild
      · split at hstep
        · cases hstep
        · obtain rfl := Option.some.inj hstep
          exact harmless_move rfl
    | _ => cases hstep
  | create c raw now lost =>
    cases old with
    | codeMinted row =>
      simp only [callStep, create] at hstep
      split at hstep
      · obtain rfl := Option.some.inj hstep
        rw [hset] at hnew
        obtain rfl := Option.some.inj hnew
        cases lost <;> cases hmild
      · cases hstep
    | _ => cases hstep
  | revokeDone c now lost =>
    cases old with
    | revoking row targets =>
      refine ⟨rfl, revokeDone_onlyRevokes hstep, fun hclean => ?_⟩
      simp only [callStep, revokeDone] at hstep
      split at hstep
      · cases hstep
      · obtain rfl := Option.some.inj hstep
        rw [hset] at hnew
        obtain rfl := Option.some.inj hnew
        cases hclean
    | _ => cases hstep
  | rotateUpdate c now =>
    cases old with
    | tokenMinted row =>
      simp only [callStep, rotateUpdate] at hstep
      split at hstep
      · cases hstep
      · split at hstep <;> obtain rfl := Option.some.inj hstep
        · exact harmless_move rfl
        · exact harmless_move rfl
    | _ => cases hstep
  | rotateCommit c raw now lost =>
    cases old with
    | rotating row startedAt =>
      simp only [callStep, rotateCommit] at hstep
      split at hstep
      · obtain rfl := Option.some.inj hstep
        rw [hset] at hnew
        obtain rfl := Option.some.inj hnew
        cases lost <;> cases hmild
      · cases hstep
    | _ => cases hstep
  | fail c failure =>
    obtain ⟨phase, hphase, rfl⟩ := Option.map_eq_some_iff.mp hstep
    rw [State.move, hset] at hnew
    obtain rfl := Option.some.inj hnew
    refine harmless_move ?_
    cases old <;> cases failure <;> cases hphase <;> first | rfl | cases hmild
  | _ => cases hstep

/-! ## Runs -/

theorem callStep_calls {crypto : Crypto} {s s' : State} {phase : Phase} {call : Nat} {e : Event}
    (h : callStep crypto s phase call e = some s') : ∃ new, s'.calls = s.calls.set call new := by
  cases e with
  | getUnused | checkCode | loadUser | authenticate | get | revokeStart | mint =>
    cases phase <;> cases h
    exact ⟨_, rfl⟩
  | consume c now lost =>
    cases phase with
    | codeChecked row =>
      simp only [callStep, consume] at h
      split at h
      · obtain rfl := Option.some.inj h
        exact ⟨_, rfl⟩
      · split at h
        · cases h
        · obtain rfl := Option.some.inj h
          exact ⟨_, rfl⟩
    | _ => cases h
  | create c raw now lost =>
    cases phase with
    | codeMinted row =>
      simp only [callStep, create] at h
      split at h
      · obtain rfl := Option.some.inj h
        exact ⟨_, rfl⟩
      · cases h
    | _ => cases h
  | revokeDone c now lost =>
    cases phase with
    | revoking row targets =>
      simp only [callStep, revokeDone] at h
      split at h
      · cases h
      · obtain rfl := Option.some.inj h
        exact ⟨_, rfl⟩
    | _ => cases h
  | rotateUpdate c now =>
    cases phase with
    | tokenMinted row =>
      simp only [callStep, rotateUpdate] at h
      split at h
      · cases h
      · split at h <;> obtain rfl := Option.some.inj h
        · exact ⟨_, rfl⟩
        · exact ⟨_, rfl⟩
    | _ => cases h
  | rotateCommit c raw now lost =>
    cases phase with
    | rotating row startedAt =>
      simp only [callStep, rotateCommit] at h
      split at h
      · obtain rfl := Option.some.inj h
        exact ⟨_, rfl⟩
      · cases h
    | _ => cases h
  | fail c failure =>
    obtain ⟨new, -, rfl⟩ := Option.map_eq_some_iff.mp h
    exact ⟨new, rfl⟩
  | _ => cases h

theorem delete_calls {s s' : State} {code : CodeRow → Bool} {token : TokenRow → Bool}
    (h : s.delete code token = some s') : s'.calls = s.calls := by
  unfold State.delete at h
  split at h
  · cases h
  · obtain rfl := Option.some.inj h
    rfl

theorem outsideStep_calls {s s' : State} {e : Event} (h : outsideStep s e = some s') :
    s.calls <+: s'.calls := by
  cases e with
  | addClient | addUser =>
    cases h
    exact List.prefix_rfl
  | removeClient | removeUser | purgeCodes | purgeTokens =>
    exact (delete_calls h).symm ▸ List.prefix_rfl
  | authorize row =>
    simp only [outsideStep] at h
    split at h
    · cases h
    · obtain rfl := Option.some.inj h
      exact List.prefix_rfl
  | request req =>
    cases h
    exact List.prefix_append _ _
  | _ => cases h

theorem step_other {crypto : Crypto} {s s' : State} {e : Event} {call : Nat} {phase : Phase}
    (hstep : step crypto s e = some s') (hother : e.call ≠ some call)
    (hcall : s.calls[call]? = some phase) : s'.calls[call]? = some phase := by
  unfold step at hstep
  split at hstep
  · next other hother' =>
    obtain ⟨old, -, hstep⟩ := Option.bind_eq_some_iff.mp hstep
    obtain ⟨new, hnew⟩ := callStep_calls hstep
    have hne : other ≠ call := fun heq => hother (hother'.trans (congrArg some heq))
    rw [hnew, List.getElem?_set_ne hne]
    exact hcall
  · obtain ⟨rest, hrest⟩ := outsideStep_calls hstep
    rw [← hrest, List.getElem?_append_left (List.getElem?_eq_some_iff.mp hcall).1]
    exact hcall

theorem everyStep_of_last {crypto : Crypto} {K : Phase → Prop} {Q : State → State → Prop}
    {call : Nat}
    (hback : ∀ s s' e old new, s.calls[call]? = some old → callStep crypto s old call e = some s' →
      s'.calls[call]? = some new → K new → K old ∧ Q s s')
    {events : List Event} {s : State} {last : Phase}
    (hrun : exec (step crypto) {} events = some s) (hcall : s.calls[call]? = some last)
    (hlast : K last) : EveryStep crypto events call Q := by
  have hall : ∀ start, exec (step crypto) start events = some s →
      (∀ old, start.calls[call]? = some old → K old) ∧
        Meets (step crypto)
          (fun mid e => ∀ next, step crypto mid e = some next → e.call = some call → Q mid next)
          start events := by
    clear hrun
    induction events with
    | nil =>
      intro start hrun
      obtain rfl := Option.some.inj hrun
      refine ⟨fun old hold => ?_, trivial⟩
      obtain rfl := Option.some.inj (hcall.symm.trans hold)
      exact hlast
    | cons e events ih =>
      intro start hrun
      obtain ⟨next, hstep, hrun⟩ := exec_cons_eq_some.mp hrun
      obtain ⟨hnext, hrest⟩ := ih next hrun
      have hfirst : (∀ old, start.calls[call]? = some old → K old) ∧
          (e.call = some call → Q start next) := by
        by_cases hown : e.call = some call
        · have hown' := hstep
          simp only [step, hown] at hown'
          obtain ⟨old, hold, hown'⟩ := Option.bind_eq_some_iff.mp hown'
          obtain ⟨new, hset⟩ := callStep_calls hown'
          have hnew : next.calls[call]? = some new := by
            rw [hset, getElem?_set_of_some hold]
          obtain ⟨hK, hQ⟩ := hback start next e old new hold hown' hnew (hnext new hnew)
          refine ⟨fun old' hold' => ?_, fun _ => hQ⟩
          obtain rfl := Option.some.inj (hold.symm.trans hold')
          exact hK
        · exact ⟨fun old hold => hnext old (step_other hstep hown hold),
            fun h => absurd h hown⟩
      refine ⟨hfirst.1, fun next' hstep' hown => ?_, fun next' hstep' => ?_⟩
      · obtain rfl := Option.some.inj (hstep.symm.trans hstep')
        exact hfirst.2 hown
      · obtain rfl := Option.some.inj (hstep.symm.trans hstep')
        exact hrest
  intro before e mid next hbefore hmid hstep hown
  exact meets_iff_forall_steps.mp (hall {} hrun).2 before e mid next hbefore hmid hstep hown

theorem everyStep_refused {crypto : Crypto} {events : List Event} {s : State} {call : Nat}
    {refusal : Refusal} (hrun : exec (step crypto) {} events = some s)
    (hcall : s.calls[call]? = some (.refused refusal)) :
    EveryStep crypto events call Untouched := by
  refine everyStep_of_last (K := fun phase => phase.clean = true) ?_ hrun hcall rfl
  intro mid next e old new hold hstep hnew hclean
  have h := callStep_harmless hold hstep hnew (Phase.mild_of_clean hclean)
  exact ⟨h.clean, h.untouched hclean⟩

theorem everyStep_reuse {crypto : Crypto} {events : List Event} {s : State} {call : Nat}
    {row : TokenRow} {revoked : Bool} (hrun : exec (step crypto) {} events = some s)
    (hcall : s.calls[call]? = some (.reuseAnswered row revoked)) :
    EveryStep crypto events call OnlyRevokes := by
  refine everyStep_of_last (K := fun phase => phase.mild = true) ?_ hrun hcall rfl
  intro mid next e old new hold hstep hnew hmild
  have h := callStep_harmless hold hstep hnew hmild
  exact ⟨Phase.mild_of_clean h.clean, h.onlyRevokes⟩

/--
In every run at most one unrevoked token descends from a code, and a refused request does nothing
or revokes.
-/
theorem oneLive_of_exec (crypto : Crypto) (events : List Event) (s : State)
    (hrun : exec (step crypto) {} events = some s) :
    OneLive s ∧ GoneWithUser s ∧
    (∀ (call : Nat) (refusal : Refusal), s.calls[call]? = some (.refused refusal) →
      EveryStep crypto events call Untouched) ∧
    ∀ (call : Nat) (row : TokenRow) (revoked : Bool),
      s.calls[call]? = some (.reuseAnswered row revoked) →
      EveryStep crypto events call OnlyRevokes := by
  have hsound := sound_of_exec sound_init hrun
  exact ⟨hsound.oneLive, hsound.goneWithUser, fun call refusal => everyStep_refused hrun,
    fun call row revoked => everyStep_reuse hrun⟩

/-! ## A run -/

def plainCrypto : Crypto := ⟨id, id⟩

def appVerifier : String := "abcdefghijklmnopqrstuvwxyz0123456789-._~ABC"

def appCode : CodeRow :=
  { codeHash := "code", clientId := "app", userId := 1, redirectUri := "app:cb"
    codeChallenge := appVerifier, scope := "mcp", resource := "server", expiresAt := 100 }

def exchangeRequest : TokenRequest :=
  { grantType := "authorization_code", code := some "code", redirectUri := some "app:cb"
    codeVerifier := some appVerifier, clientId := some "app" }

def refreshRequest (token : String) : TokenRequest :=
  { grantType := "refresh_token", refreshToken := some token, clientId := some "app" }

def redeemed : List Event :=
  [.addClient { clientId := "app" }, .addUser 1, .authorize appCode, .request exchangeRequest,
    .getUnused 0 1, .checkCode 0 1, .consume 0 1 false, .loadUser 0, .create 0 "t0" 1 false]

def redeemedTwice : List Event :=
  redeemed ++ [.request exchangeRequest, .getUnused 1 1, .request (refreshRequest "t0"),
    .authenticate 2 2, .get 2 2, .mint 2, .rotateUpdate 2 2, .rotateCommit 2 "t1" 2 false]

theorem oneLive_of_exec_redeemedTwice :
    ∃ s, exec (step plainCrypto) {} redeemedTwice = some s ∧ s.tokens.length = 2 ∧ OneLive s ∧
      EveryStep plainCrypto redeemedTwice 1 Untouched := by
  refine ⟨_, rfl, rfl, ?_⟩
  have h := oneLive_of_exec plainCrypto redeemedTwice _ rfl
  exact ⟨h.1, h.2.2.1 1 _ rfl⟩

end Stroem.OAuth

/-!
# The end of a chain

A replayed token revokes every token of its client and user that the revocation's snapshot holds.
A rotation that commits after the snapshot adds a token that is not in it; where none of the same
code does so before the revocation ends, nothing of the chain is left.
-/

namespace Stroem.OAuth

open Foundation

def Ended (s : State) : Prop :=
  ∀ row, .reuseAnswered row true ∈ s.calls → ∀ code, Descends s.issued row.tokenHash code →
    (∀ token ∈ s.tokens, Descends s.issued token.tokenHash code →
      token.revokedAt.isSome = true) ∧
    ∀ token startedAt, .rotating token startedAt ∈ s.calls →
      ¬Descends s.issued token.tokenHash code

def Undisturbed (s : State) (e : Event) : Prop :=
  ∀ call raw now lost row startedAt, e = .rotateCommit call raw now lost →
    s.calls[call]? = some (.rotating row startedAt) →
    ∀ reused targets, .revoking reused targets ∈ s.calls →
      ∀ code, Descends s.issued row.tokenHash code → ¬Descends s.issued reused.tokenHash code

/-! ## The invariant -/

def Left (s : State) (row : TokenRow) (targets : List String) : Prop :=
  ∀ code, Descends s.issued row.tokenHash code → ∀ token ∈ s.tokens, token.revokedAt = none →
    Descends s.issued token.tokenHash code → token.tokenHash ∈ targets

def Phase.chain : Phase → Option (TokenRow × List String)
  | .revoking row targets => some (row, targets)
  | .reuseAnswered row true => some (row, [])
  | _ => none

def Covered (s : State) : Prop :=
  ∀ phase ∈ s.calls, ∀ row targets, phase.chain = some (row, targets) → Left s row targets

theorem Phase.chain_cases {phase : Phase} {row : TokenRow} {targets : List String}
    (h : phase.chain = some (row, targets)) :
    phase = .revoking row targets ∨ phase = .reuseAnswered row true ∧ targets = [] := by
  cases phase with
  | revoking => cases h; exact .inl rfl
  | reuseAnswered other revoked =>
    cases revoked with
    | true => cases h; exact .inr ⟨rfl, rfl⟩
    | false => cases h
  | _ => cases h

theorem Phase.token_of_chain {phase : Phase} {row : TokenRow} {targets : List String}
    (h : phase.chain = some (row, targets)) : phase.token = some row := by
  obtain rfl | ⟨rfl, -⟩ := Phase.chain_cases h <;> rfl

theorem Phase.Empty.chain_ne {phase : Phase} (h : phase.Empty) {row : TokenRow}
    {targets : List String} : phase.chain ≠ some (row, targets) :=
  fun hchain => h.token_ne (Phase.token_of_chain hchain)

/-! ## What is left -/

theorem Sound.same_owner {s : State} (h : Sound s) {row token : TokenRow} (hrow : Owned s row)
    (htoken : Owned s token) {code : String} (hcode : Descends s.issued row.tokenHash code)
    (hcode' : Descends s.issued token.tokenHash code) :
    token.clientId = row.clientId ∧ token.userId = row.userId := by
  have hsame := h.codes.grantedOnce _ (htoken.2 code hcode') _ (hrow.2 code hcode) rfl
  exact ⟨congrArg Grant.clientId hsame, congrArg Grant.userId hsame⟩

theorem left_chainTargets {s : State} (h : Sound s) {row : TokenRow} (hrow : Owned s row) :
    Left s row (chainTargets s row) := by
  intro code hcode token htoken hlive hcode'
  have howner := h.same_owner hrow (h.tokens.tokenOwned token htoken) hcode hcode'
  refine List.mem_map.mpr ⟨token, List.mem_filter.mpr ⟨htoken, ?_⟩, rfl⟩
  rw [howner.1, howner.2, hlive, beq_self_eq_true, beq_self_eq_true]
  rfl

theorem Left.mono {s s' : State} {row : TokenRow} {targets : List String}
    (h : Left s row targets) (hissued : s'.issued = s.issued)
    (htokens : ∀ token ∈ s'.tokens, token.revokedAt = none → token ∈ s.tokens) :
    Left s' row targets := by
  intro code hcode token htoken hlive hcode'
  rw [hissued] at hcode hcode'
  exact h code hcode token (htokens token htoken hlive) hlive hcode'

theorem Left.insert {s s' : State} {row : TokenRow} {targets : List String}
    (h : Left s row targets) (hsound : Sound s) (hborn : Born s.issued row.tokenHash)
    {token : TokenRow} {origin : Origin String String}
    (hfresh : ¬Born s.issued token.tokenHash)
    (hissued : s'.issued = ⟨token.tokenHash, origin⟩ :: s.issued)
    (htokens : ∀ r ∈ s'.tokens, r.revokedAt = none → r ∈ s.tokens ∨ r = token)
    (hother : ∀ code, Descends s.issued row.tokenHash code →
      ¬Descends s'.issued token.tokenHash code) : Left s' row targets := by
  intro code hcode r hr hlive hcode'
  have hne : row.tokenHash ≠ token.tokenHash := fun heq => hfresh (heq ▸ hborn)
  rw [hissued, Linear.descends_cons_iff hsound.codes.linear hfresh hne] at hcode
  obtain hold | rfl := htokens r hr hlive
  · rw [hissued, Linear.descends_cons_iff hsound.codes.linear hfresh
      (hsound.hash_ne hfresh r hold)] at hcode'
    exact h code hcode r hold hlive hcode'
  · exact absurd hcode' (hother code hcode)

theorem live_of_updateWhere {tokens : List TokenRow} {p : TokenRow → Bool} {now : Time}
    {token : TokenRow} (h : token ∈ updateWhere p (revoke now) tokens)
    (hlive : token.revokedAt = none) : token ∈ tokens ∧ p token = false := by
  obtain ⟨old, hold, rfl⟩ := mem_updateWhere.mp h
  by_cases hp : p old = true
  · rw [if_pos hp] at hlive
    cases hlive
  · rw [if_neg hp]
    exact ⟨hold, Bool.eq_false_iff.mpr hp⟩

/-! ## Steps -/

theorem covered_set {s s' : State} {call : Nat} {new : Phase}
    (hcalls : s'.calls = s.calls.set call new)
    (hold : ∀ phase ∈ s.calls, ∀ row targets, phase.chain = some (row, targets) →
      Left s' row targets)
    (hnew : ∀ row targets, new.chain = some (row, targets) → Left s' row targets) :
    Covered s' := by
  intro phase hphase
  rw [hcalls] at hphase
  exact forall_mem_set hold hnew phase hphase

theorem covered_rotated {s : State} (hsound : Sound s) (h : Covered s) {call : Nat}
    {row : TokenRow} {startedAt : Time} {token : TokenRow} {new : Phase}
    (hcall : s.calls[call]? = some (.rotating row startedAt))
    (hundisturbed : ∀ reused targets, .revoking reused targets ∈ s.calls →
      ∀ code, Descends s.issued row.tokenHash code → ¬Descends s.issued reused.tokenHash code)
    (hfresh : ¬Born s.issued token.tokenHash) (hnew : new.Empty) :
    Covered { s with
      tokens := updateWhere (·.tokenHash == row.tokenHash) (revoke startedAt) s.tokens ++ [token]
      issued := ⟨token.tokenHash, .parent row.tokenHash⟩ :: s.issued
      calls := s.calls.set call new } := by
  have hmem := List.mem_of_getElem? hcall
  have hborn : Born s.issued row.tokenHash := (hsound.calls.callOwned _ hmem row rfl).1
  refine covered_set rfl (fun phase hphase other targets hchain => ?_)
    fun other targets hchain => absurd hchain hnew.chain_ne
  have hleft := h phase hphase other targets hchain
  have hother := (hsound.calls.callOwned phase hphase other (Phase.token_of_chain hchain)).1
  refine hleft.insert hsound hother hfresh rfl (fun r hr hlive => ?_) fun code hcode hcode' => ?_
  · obtain hr | hr := List.mem_append.mp hr
    · exact .inl (live_of_updateWhere hr hlive).1
    · exact .inr (List.mem_singleton.mp hr)
  · have hparent : Descends s.issued row.tokenHash code :=
      (Linear.descends_child_iff hsound.codes.linear hfresh hborn).mp hcode'
    obtain rfl | ⟨rfl, rfl⟩ := Phase.chain_cases hchain
    · exact hundisturbed other targets hphase code hparent hcode
    · -- the held row is live, so the chain has not ended
      obtain ⟨held, hheld, hhash, hlive⟩ := hsound.calls.heldLive _ hmem row rfl
      rw [← hhash] at hparent
      exact absurd (hleft code hcode held hheld hlive hparent) List.not_mem_nil

theorem covered_effect {s s' : State} {e : Event} (hsound : Sound s) (h : Covered s)
    (hok : Undisturbed s e) (he : Effect s e s') : Covered s' := by
  cases he with
  | people | authorized => exact h
  | deleted clients users code token husers hfree =>
    intro phase hphase row targets hchain
    refine (h phase hphase row targets hchain).mono rfl fun r hr _ => ?_
    exact List.mem_of_mem_filter hr
  | requested phase hempty =>
    intro p hp row targets hchain
    obtain hp | hp := List.mem_append.mp hp
    · exact h p hp row targets hchain
    · rw [List.mem_singleton.mp hp] at hchain
      exact absurd hchain hempty.chain_ne
  | moved call old new hcall hfollows =>
    refine covered_set rfl (fun phase hphase row targets hchain => ?_)
      fun row targets hchain => ?_
    · exact h phase hphase row targets hchain
    · obtain rfl | ⟨rfl, -⟩ := Phase.chain_cases hchain
      · have howned : Owned s row := by
          obtain hold | hrow := hfollows.token row rfl
          · exact hsound.calls.callOwned old (List.mem_of_getElem? hcall) row hold
          · exact hsound.tokens.tokenOwned row hrow
        rw [hfollows.targets row targets rfl]
        exact left_chainTargets hsound howned
      · exact absurd rfl (hfollows.answered row)
  | spent call row now new hcall hunused hnew =>
    refine covered_set rfl (fun phase hphase other targets hchain => ?_)
      fun other targets hchain => ?_
    · exact h phase hphase other targets hchain
    · obtain rfl | hempty := hnew
      · cases hchain
      · exact absurd hchain hempty.chain_ne
  | issued call row token new hcall hfresh howner hnew =>
    obtain ⟨-, hnone⟩ := hsound.calls.callSpent _ (List.mem_of_getElem? hcall) row rfl
    refine covered_set rfl (fun phase hphase other targets hchain => ?_)
      fun other targets hchain => absurd hchain hnew.chain_ne
    have hother := (hsound.calls.callOwned phase hphase other (Phase.token_of_chain hchain)).1
    refine (h phase hphase other targets hchain).insert hsound hother hfresh rfl
      (fun r hr _ => ?_) fun code hcode hcode' => ?_
    · exact (List.mem_append.mp hr).imp_right List.mem_singleton.mp
    · obtain rfl := (Linear.descends_first_iff hfresh).mp hcode'
      obtain ⟨first, hfirst⟩ := hcode.first
      exact hnone first hfirst
  | locked call row now hcall hfree hlive =>
    refine covered_set rfl (fun phase hphase other targets hchain => ?_) nofun
    exact h phase hphase other targets hchain
  | rotated call row startedAt token new hevent hcall hfresh howner hnew =>
    obtain ⟨raw, now, lost, rfl⟩ := hevent
    exact covered_rotated hsound h hcall (hok call raw now lost row startedAt rfl hcall)
      hfresh hnew
  | revoked call row targets now success hcall hfree =>
    refine covered_set rfl (fun phase hphase other remaining hchain => ?_)
      fun other remaining hchain => ?_
    · refine (h phase hphase other remaining hchain).mono rfl fun r hr hlive => ?_
      exact (live_of_updateWhere hr hlive).1
    · intro code hcode r hr hlive hcode'
      obtain ⟨hold, hmissed⟩ := live_of_updateWhere hr hlive
      obtain heq | ⟨heq, -⟩ := Phase.chain_cases hchain
      · cases heq
      · obtain ⟨rfl, -⟩ := Phase.reuseAnswered.inj heq
        have hcovered := h _ (List.mem_of_getElem? hcall) row targets rfl
        have htarget := hcovered code hcode r hold hlive hcode'
        rw [hlive, List.contains_iff_mem.mpr htarget] at hmissed
        cases hmissed

theorem Covered.ended {s : State} (hsound : Sound s) (h : Covered s) : Ended s := by
  intro row hrow code hcode
  have hleft : Left s row [] := h _ hrow row [] rfl
  refine ⟨fun token htoken hcode' => ?_, fun token startedAt hrotating hcode' => ?_⟩
  · cases hlive : token.revokedAt with
    | none => exact absurd (hleft code hcode token htoken hlive hcode') List.not_mem_nil
    | some _ => rfl
  · obtain ⟨held, hheld, hhash, hlive⟩ := hsound.calls.heldLive _ hrotating token rfl
    rw [← hhash] at hcode'
    exact absurd (hleft code hcode held hheld hlive hcode') List.not_mem_nil

/-! ## Runs -/

/-- In every run that no such rotation disturbs, a revocation that succeeds ends its chain. -/
theorem ended_of_undisturbed (crypto : Crypto) (events : List Event) (s : State)
    (hok : Meets (step crypto) Undisturbed {} events)
    (hrun : exec (step crypto) {} events = some s) : Ended s := by
  have hinv : Sound s ∧ Covered s := by
    refine exec_invariant (fun s => Sound s ∧ Covered s) ?_
      ⟨sound_init, fun phase h => absurd h List.not_mem_nil⟩ hok hrun
    intro s e s' hs hok hstep
    exact ⟨sound_step hs.1 hstep, covered_effect hs.1 hs.2 hok (step_effect hstep)⟩
  exact hinv.2.ended hinv.1

def Quiet (s : State) (e : Event) : Prop :=
  match e with
  | .rotateCommit .. => ∀ phase ∈ s.calls, phase.chain.isSome = false
  | _ => True

instance (s : State) (e : Event) : Decidable (Quiet s e) := by
  unfold Quiet
  split <;> infer_instance

theorem undisturbed_of_quiet {s : State} {e : Event} (h : Quiet s e) : Undisturbed s e := by
  rintro call raw now lost row startedAt rfl hcall reused targets hrevoking
  have hnone := h _ hrevoking
  cases hnone

def replayed : List Event :=
  redeemed ++ [.request (refreshRequest "t0"), .authenticate 1 2, .get 1 2, .mint 1,
    .rotateUpdate 1 2, .rotateCommit 1 "t1" 2 false, .request (refreshRequest "t0"),
    .authenticate 2 3, .get 2 3]

theorem ended_of_undisturbed_replayed :
    ∃ s, exec (step plainCrypto) {} (replayed ++ [.revokeStart 2, .revokeDone 2 3 false]) = some s ∧
      (∃ row, .reuseAnswered row true ∈ s.calls) ∧ Ended s := by
  refine ⟨_, rfl, ⟨_, List.mem_of_getElem? (i := 2) rfl⟩, ?_⟩
  refine ended_of_undisturbed plainCrypto (replayed ++ [.revokeStart 2, .revokeDone 2 3 false]) _
    ?_ rfl
  have hquiet : Meets (step plainCrypto) Quiet {}
      (replayed ++ [.revokeStart 2, .revokeDone 2 3 false]) := by decide +kernel
  exact hquiet.mono fun _ _ => undisturbed_of_quiet

def overtaken : List Event :=
  replayed ++ [.request (refreshRequest "t1"), .authenticate 3 3, .get 3 3, .mint 3,
    .rotateUpdate 3 3, .revokeStart 2, .rotateCommit 3 "t2" 3 false, .revokeDone 2 3 false]

theorem chain_survives :
    ∃ s, exec (step plainCrypto) {} overtaken = some s ∧
      (∃ row, .reuseAnswered row true ∈ s.calls) ∧ ¬Ended s := by
  refine ⟨_, rfl, ⟨_, List.mem_of_getElem? (i := 2) rfl⟩, fun hended => ?_⟩
  obtain ⟨hrevoked, -⟩ := hended _ (List.mem_of_getElem? (i := 2) rfl) "code"
    (IsFirst.descends (List.mem_of_getElem? (i := 2) rfl))
  have hlive := hrevoked _ (List.mem_of_getElem? (i := 2) rfl) <|
    @Descends.child String String _ _ "t1" _
      (@Descends.child String String _ _ "t0" _
        (IsFirst.descends (List.mem_of_getElem? (i := 2) rfl))
        (List.mem_of_getElem? (i := 1) rfl))
      (List.mem_of_getElem? (i := 0) rfl)
  cases hlive

end Stroem.OAuth
