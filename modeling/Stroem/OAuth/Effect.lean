import Stroem.OAuth

/-!
# What a statement can do

Every step of the token endpoint is one of a few effects on the tables and on the phase of its
call; the invariants are proved against these.
-/

namespace Stroem.OAuth

open Foundation

variable {s s' : State} {e : Event}

/-! ## What a phase holds -/

namespace Phase

def code : Phase → Option CodeRow
  | .codeLoaded _ _ _ row | .codeChecked row | .codeSpent row | .codeMinted row => some row
  | _ => none

def spent : Phase → Option CodeRow
  | .codeSpent row | .codeMinted row => some row
  | _ => none

def token : Phase → Option TokenRow
  | .reuseFound row | .revoking row _ | .tokenCurrent row | .tokenMinted row | .rotating row _
  | .reuseAnswered row _ => some row
  | _ => none

def held : Phase → Option TokenRow
  | .rotating row _ => some row
  | _ => none

def Empty (phase : Phase) : Prop :=
  phase.code = none ∧ phase.token = none

end Phase

structure Follows (s : State) (old new : Phase) : Prop where
  code : ∀ row, new.code = some row → old.code = some row ∨ row ∈ s.codes
  spent : ∀ row, new.spent = some row → old.spent = some row
  token : ∀ row, new.token = some row → old.token = some row ∨ row ∈ s.tokens
  held : new.held = none
  targets : ∀ row targets, new = .revoking row targets → targets = chainTargets s row
  answered : ∀ row, new ≠ .reuseAnswered row true

inductive Effect (s : State) (e : Event) : State → Prop where
  | people (clients : List ClientRow) (users : List Uuid)
      (husers : ∀ user ∈ s.users, user ∈ users) : Effect s e { s with clients, users }
  | deleted (clients : List ClientRow) (users : List Uuid) (code : CodeRow → Bool)
      (token : TokenRow → Bool)
      (husers : ∀ row : CodeRow, code row = false → row.userId ∈ s.users → row.userId ∈ users)
      (hfree : ∀ row ∈ s.tokens, token row = true → s.locked row.tokenHash = false) :
      Effect s e { s with
        clients, users
        codes := s.codes.filter fun row => !code row
        tokens := s.tokens.filter fun row => !token row }
  | authorized (row : CodeRow) (hfresh : ∀ grant ∈ s.authorized, grant.codeHash ≠ row.codeHash)
      (huser : row.userId ∈ s.users) :
      Effect s e { s with codes := s.codes ++ [row], authorized := row.grant :: s.authorized }
  | requested (phase : Phase) (hempty : phase.Empty) :
      Effect s e { s with calls := s.calls ++ [phase] }
  | moved (call : Nat) (old new : Phase) (hcall : s.calls[call]? = some old)
      (hfollows : Follows s old new) : Effect s e (s.move call new)
  | spent (call : Nat) (row : CodeRow) (now : Time) (new : Phase)
      (hcall : s.calls[call]? = some (.codeChecked row))
      (hunused : ∃ r ∈ s.codes, isUnused row.codeHash now r = true)
      (hnew : new = .codeSpent row ∨ new.Empty) :
      Effect s e { s with
        codes := updateWhere (isUnused row.codeHash now) (fun r => { r with usedAt := some now })
          s.codes
        calls := s.calls.set call new }
  | issued (call : Nat) (row : CodeRow) (token : TokenRow) (new : Phase)
      (hcall : s.calls[call]? = some (.codeMinted row))
      (hfresh : ¬Born s.issued token.tokenHash)
      (howner : token.clientId = row.clientId ∧ token.userId = row.userId)
      (hnew : new.Empty) :
      Effect s e { s with
        tokens := s.tokens ++ [token]
        issued := ⟨token.tokenHash, .root row.codeHash⟩ :: s.issued
        calls := s.calls.set call new }
  | locked (call : Nat) (row : TokenRow) (now : Time)
      (hcall : s.calls[call]? = some (.tokenMinted row))
      (hfree : s.locked row.tokenHash = false)
      (hlive : ∃ r ∈ s.tokens, r.tokenHash = row.tokenHash ∧ r.revokedAt = none) :
      Effect s e (s.move call (.rotating row now))
  | rotated (call : Nat) (row : TokenRow) (startedAt : Time) (token : TokenRow) (new : Phase)
      (hevent : ∃ raw now lost, e = .rotateCommit call raw now lost)
      (hcall : s.calls[call]? = some (.rotating row startedAt))
      (hfresh : ¬Born s.issued token.tokenHash)
      (howner : token.clientId = row.clientId ∧ token.userId = row.userId)
      (hnew : new.Empty) :
      Effect s e { s with
        tokens := updateWhere (·.tokenHash == row.tokenHash) (revoke startedAt) s.tokens ++ [token]
        issued := ⟨token.tokenHash, .parent row.tokenHash⟩ :: s.issued
        calls := s.calls.set call new }
  | revoked (call : Nat) (row : TokenRow) (targets : List String) (now : Time) (success : Bool)
      (hcall : s.calls[call]? = some (.revoking row targets))
      (hfree : ∀ target ∈ targets, s.locked target = false) :
      Effect s e { s with
        tokens := updateWhere
          (fun token => targets.contains token.tokenHash && token.revokedAt.isNone) (revoke now)
          s.tokens
        calls := s.calls.set call (.reuseAnswered row success) }

/-! ## Phases -/

theorem present_empty (req : TokenRequest) : (present req).Empty := by
  unfold present
  split
  · split <;> exact ⟨rfl, rfl⟩
  · split
    · split <;> exact ⟨rfl, rfl⟩
    · exact ⟨rfl, rfl⟩

theorem follows_of_empty {old new : Phase} (h : new.Empty) : Follows s old new := by
  obtain ⟨hcode, htoken⟩ := h
  cases new with
  | exchange | refresh | clientKnown | granted | refused | failed =>
    exact ⟨fun _ h => (by cases h), fun _ h => (by cases h), fun _ h => (by cases h), rfl,
      fun _ _ h => (by cases h), fun _ h => (by cases h)⟩
  | codeLoaded | codeChecked | codeSpent | codeMinted => cases hcode
  | reuseFound | revoking | tokenCurrent | tokenMinted | rotating | reuseAnswered => cases htoken

theorem follows_getUnused (crypto : Crypto) (s : State) (now : Time) (req : TokenRequest)
    (code redirectUri codeVerifier : String) (old : Phase) :
    Follows s old (afterGetUnused crypto s now req code redirectUri codeVerifier) := by
  unfold afterGetUnused
  split
  · next row hrow =>
    refine ⟨fun r hr => ?_, fun _ h => (by cases h), fun _ h => (by cases h), rfl,
      fun _ _ h => (by cases h), fun _ h => (by cases h)⟩
    cases hr
    exact .inr (List.mem_of_find?_eq_some hrow)
  · exact follows_of_empty ⟨rfl, rfl⟩

theorem follows_checkCode (crypto : Crypto) (s : State) (now : Time) (req : TokenRequest)
    (redirectUri codeVerifier : String) (row : CodeRow) :
    Follows s (.codeLoaded req redirectUri codeVerifier row)
      (afterCheckCode crypto s now req redirectUri codeVerifier row) := by
  unfold afterCheckCode
  split
  · exact follows_of_empty ⟨rfl, rfl⟩
  · split
    · exact follows_of_empty ⟨rfl, rfl⟩
    · split
      · exact ⟨fun _ h => .inl h, fun _ h => (by cases h), fun _ h => (by cases h), rfl,
          fun _ _ h => (by cases h), fun _ h => (by cases h)⟩
      · exact follows_of_empty ⟨rfl, rfl⟩

theorem follows_get (crypto : Crypto) (s : State) (now : Time) (refresh claimedClient : String)
    (old : Phase) : Follows s old (afterGet crypto s now refresh claimedClient) := by
  unfold afterGet
  split
  · exact follows_of_empty ⟨rfl, rfl⟩
  · next row hrow =>
    have hmem : ∀ r, some row = some r → r ∈ s.tokens := by
      intro r hr
      cases hr
      exact List.mem_of_find?_eq_some hrow
    split
    · exact follows_of_empty ⟨rfl, rfl⟩
    · split
      · exact ⟨fun _ h => (by cases h), fun _ h => (by cases h), fun r h => .inr (hmem r h), rfl,
          fun _ _ h => (by cases h), fun _ h => (by cases h)⟩
      · split
        · exact follows_of_empty ⟨rfl, rfl⟩
        · exact ⟨fun _ h => (by cases h), fun _ h => (by cases h), fun r h => .inr (hmem r h),
            rfl, fun _ _ h => (by cases h), fun _ h => (by cases h)⟩

theorem follows_afterFailure {old new : Phase} {failure : Failure}
    (h : afterFailure old failure = some new) : Follows s old new := by
  cases old <;> cases failure <;> cases h <;>
    first
      | exact follows_of_empty ⟨rfl, rfl⟩
      | exact ⟨fun _ h => (by cases h), fun _ h => (by cases h), fun _ h => .inl h, rfl,
          fun _ _ h => (by cases h), fun _ h => (by cases h)⟩

/-! ## Steps -/

theorem delete_effect {clients : List ClientRow} {users : List Uuid}
    {code : CodeRow → Bool} {token : TokenRow → Bool}
    (husers : ∀ row : CodeRow, code row = false → row.userId ∈ s.users → row.userId ∈ users)
    (h : ({ s with clients, users } : State).delete code token = some s') : Effect s e s' := by
  unfold State.delete at h
  split at h
  · cases h
  · next hfree =>
    cases h
    refine .deleted clients users code token husers fun row hrow htoken => ?_
    rw [Bool.not_eq_true, List.any_eq_false] at hfree
    have hrow := hfree row hrow
    rw [htoken, Bool.true_and, Bool.not_eq_true] at hrow
    exact hrow

theorem outsideStep_effect (h : outsideStep s e = some s') :
    Effect s e s' := by
  cases e with
  | addClient client =>
    cases h
    exact .people _ _ fun _ huser => huser
  | addUser user =>
    cases h
    exact .people _ _ fun _ huser => List.mem_append_left _ huser
  | removeClient clientId => exact delete_effect (fun _ _ huser => huser) h
  | removeUser user =>
    refine delete_effect (fun row hother huser => List.mem_filter.mpr ⟨huser, ?_⟩) h
    rw [bne, hother]
    rfl
  | purgeCodes now => exact delete_effect (fun _ _ huser => huser) h
  | purgeTokens now => exact delete_effect (fun _ _ huser => huser) h
  | request req => cases h; exact .requested _ (present_empty req)
  | authorize row =>
    unfold outsideStep at h
    dsimp only at h
    split at h
    · cases h
    · next hcond =>
      cases h
      simp only [Bool.or_eq_true, not_or, Bool.not_eq_true, Bool.not_eq_false',
        List.contains_iff_mem] at hcond
      refine .authorized row (fun grant hgrant => ?_) hcond.2
      have hne := List.any_eq_false.mp hcond.1.1.1 grant hgrant
      rwa [beq_iff_eq] at hne
  | _ => cases h

theorem not_born_of_canInsert {tokenHash clientId : String} {userId : Uuid}
    (h : s.canInsert tokenHash clientId userId = true) : ¬Born s.issued tokenHash := by
  unfold State.canInsert at h
  rw [Bool.and_eq_true, Bool.and_eq_true, Bool.not_eq_true', List.any_eq_false] at h
  rintro ⟨birth, hbirth, heq⟩
  exact h.1.1 birth hbirth (beq_iff_eq.mpr heq)

theorem consume_effect {call : Nat} {row : CodeRow} {now : Time}
    {lost : Bool}
    (hcall : s.calls[call]? = some (.codeChecked row))
    (h : consume s call row now lost = some s') : Effect s e s' := by
  unfold consume at h
  split at h
  · next hunused =>
    cases h
    refine .spent call row now _ hcall (List.any_eq_true.mp hunused) ?_
    cases lost with
    | true => exact .inr ⟨rfl, rfl⟩
    | false => exact .inl rfl
  · split at h
    · cases h
    · cases h
      exact .moved call _ _ hcall (follows_of_empty ⟨rfl, rfl⟩)

theorem create_effect {crypto : Crypto} {call : Nat} {row : CodeRow}
    {raw : String} {now : Time} {lost : Bool} (hcall : s.calls[call]? = some (.codeMinted row))
    (h : create crypto s call row raw now lost = some s') : Effect s e s' := by
  unfold create at h
  split at h
  · next hcan =>
    cases h
    refine .issued call row _ _ hcall (not_born_of_canInsert hcan) ⟨rfl, rfl⟩ ?_
    cases lost <;> exact ⟨rfl, rfl⟩
  · cases h

theorem revokeDone_effect {call : Nat} {row : TokenRow}
    {targets : List String} {now : Time} {lost : Bool}
    (hcall : s.calls[call]? = some (.revoking row targets))
    (h : revokeDone s call row targets now lost = some s') : Effect s e s' := by
  unfold revokeDone at h
  split at h
  · cases h
  · next hfree =>
    cases h
    rw [Bool.not_eq_true, List.any_eq_false] at hfree
    refine .revoked call row targets now _ hcall fun target htarget => ?_
    exact Bool.not_eq_true _ ▸ hfree target htarget

theorem rotateUpdate_effect {call : Nat} {row : TokenRow} {now : Time}
    (hcall : s.calls[call]? = some (.tokenMinted row))
    (h : rotateUpdate s call row now = some s') : Effect s e s' := by
  unfold rotateUpdate at h
  split at h
  · cases h
  · next hfree =>
    split at h
    · next hcurrent =>
      cases h
      obtain ⟨r, hr, hrow⟩ := List.any_eq_true.mp hcurrent
      unfold isCurrent at hrow
      rw [Bool.and_eq_true, Bool.and_eq_true, beq_iff_eq, Option.isNone_iff_eq_none] at hrow
      exact .locked call row now hcall (Bool.eq_false_iff.mpr hfree) ⟨r, hr, hrow.1⟩
    · cases h
      exact .moved call _ _ hcall (follows_of_empty ⟨rfl, rfl⟩)

theorem rotateCommit_effect {crypto : Crypto} {call : Nat} {row : TokenRow}
    {startedAt : Time} {raw : String} {now : Time} {lost : Bool}
    (hcall : s.calls[call]? = some (.rotating row startedAt))
    (h : rotateCommit crypto s call row startedAt raw now lost = some s') :
    Effect s (.rotateCommit call raw now lost) s' := by
  unfold rotateCommit at h
  split at h
  · next hcan =>
    cases h
    refine .rotated call row startedAt _ _ ⟨raw, now, lost, rfl⟩ hcall
      (not_born_of_canInsert hcan) ⟨rfl, rfl⟩ ?_
    cases lost <;> exact ⟨rfl, rfl⟩
  · cases h

theorem callStep_effect {crypto : Crypto} {phase : Phase} {call : Nat}
    (hcall : s.calls[call]? = some phase) (hown : e.call = some call)
    (h : callStep crypto s phase call e = some s') : Effect s e s' := by
  cases e with
  | getUnused c now =>
    cases phase <;> cases h
    exact .moved call _ _ hcall (follows_getUnused ..)
  | checkCode c now =>
    cases phase <;> cases h
    exact .moved call _ _ hcall (follows_checkCode ..)
  | consume c now lost =>
    cases phase with
    | codeChecked row => exact consume_effect hcall h
    | _ => cases h
  | loadUser c =>
    cases phase <;> cases h
    refine .moved call _ _ hcall ?_
    split
    · exact ⟨fun _ h => .inl h, fun _ h => h, fun _ h => (by cases h), rfl,
        fun _ _ h => (by cases h), fun _ h => (by cases h)⟩
    · exact follows_of_empty ⟨rfl, rfl⟩
  | create c raw now lost =>
    cases phase with
    | codeMinted row => exact create_effect hcall h
    | _ => cases h
  | authenticate c now =>
    cases phase <;> cases h
    refine .moved call _ _ hcall (follows_of_empty ?_)
    unfold afterAuthenticate
    split <;> exact ⟨rfl, rfl⟩
  | get c now =>
    cases phase <;> cases h
    exact .moved call _ _ hcall (follows_get ..)
  | revokeStart c =>
    cases phase <;> cases h
    refine .moved call _ _ hcall ⟨fun _ h => (by cases h), fun _ h => (by cases h),
      fun _ h => .inl h, rfl, fun _ _ h => ?_, fun _ h => (by cases h)⟩
    obtain ⟨rfl, rfl⟩ := Phase.revoking.inj h
    rfl
  | revokeDone c now lost =>
    cases phase with
    | revoking row targets => exact revokeDone_effect hcall h
    | _ => cases h
  | mint c =>
    cases phase <;> cases h
    refine .moved call _ _ hcall ?_
    split
    · exact ⟨fun _ h => (by cases h), fun _ h => (by cases h), fun _ h => .inl h, rfl,
        fun _ _ h => (by cases h), fun _ h => (by cases h)⟩
    · exact follows_of_empty ⟨rfl, rfl⟩
  | rotateUpdate c now =>
    cases phase with
    | tokenMinted row => exact rotateUpdate_effect hcall h
    | _ => cases h
  | rotateCommit c raw now lost =>
    cases phase with
    | rotating row startedAt =>
      cases hown
      exact rotateCommit_effect hcall h
    | _ => cases h
  | fail c failure =>
    obtain ⟨new, hnew, rfl⟩ := Option.map_eq_some_iff.mp h
    exact .moved call _ _ hcall (follows_afterFailure hnew)
  | _ => cases h

theorem step_effect {crypto : Crypto}
    (h : step crypto s e = some s') : Effect s e s' := by
  unfold step at h
  split at h
  · next hown =>
    obtain ⟨phase, hphase, hstep⟩ := Option.bind_eq_some_iff.mp h
    exact callStep_effect hphase hown hstep
  · exact outsideStep_effect h

end Stroem.OAuth
