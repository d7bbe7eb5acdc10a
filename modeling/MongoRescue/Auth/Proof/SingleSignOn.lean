import MongoRescue.Auth.SingleSignOn

/-!
# Changes of single sign-on that are not held

`oidcGrantsAdmin` compares the groups that map to admin, the issuer, the client and the groups claim. The
sign-in reads more: the filter of email domains, whether users are created, and the claim that names them.
`admin_signIn_iff`: when the guard lets a change pass, an identity that becomes an administrator under the
new settings was one under the old ones exactly when those let it in. `admins_kept`: what
`oidcRevokesAdmin` lets pass takes the role from nobody.
-/

namespace MongoRescue.Auth.Proof

/-! ## Usernames -/

theorem isNameChar_bounds {c : Char} (h : isNameChar c = true) : 0x2d ≤ c.toNat ∧ c.toNat ≤ 0x7a := by
  unfold isNameChar at h
  simp only [Bool.or_eq_true, Bool.and_eq_true, decide_eq_true_eq] at h
  rcases h with (((((⟨h1, h⟩ | ⟨h1, h⟩) | ⟨h1, h⟩) | h) | h) | h) | h
  · have h1 : (0x61 : Nat) ≤ c.toNat := h1
    have h : c.toNat ≤ 0x7a := h
    omega
  · have h1 : (0x41 : Nat) ≤ c.toNat := h1
    have h : c.toNat ≤ 0x5a := h
    omega
  · have h1 : (0x30 : Nat) ≤ c.toNat := h1
    have h : c.toNat ≤ 0x39 := h
    omega
  · rw [h]; decide
  · rw [h]; decide
  · rw [h]; decide
  · rw [h]; decide

theorem utf8Size_of_isNameChar {c : Char} (h : isNameChar c = true) : c.utf8Size = 1 := by
  have hv : c.val ≤ 0x7f := by
    have hc : c.val.toNat ≤ 0x7a := (isNameChar_bounds h).2
    rw [UInt32.le_iff_toNat_le]
    exact hc.trans (by decide)
  unfold Char.utf8Size
  simp [hv]

theorem isSpace_of_isNameChar {c : Char} (h : isNameChar c = true) : Go.isSpace c = false := by
  have hv := isNameChar_bounds h
  unfold Go.isSpace
  simp only [Bool.or_eq_false_iff, Bool.and_eq_false_iff, decide_eq_false_iff_not]
  omega

/-- A string of name characters has no spaces around it, and as many bytes as characters. -/
theorem name_chars {l : List Char} (h : ∀ c ∈ l, isNameChar c = true) :
    Go.trimSpace (String.ofList l) = String.ofList l ∧ Go.byteLen (String.ofList l) = l.length := by
  constructor
  · unfold Go.trimSpace Go.trimSpaces
    have hdrop : ∀ m : List Char, (∀ c ∈ m, isNameChar c = true) → m.dropWhile Go.isSpace = m := by
      intro m hm
      cases m with
      | nil => rfl
      | cons c m =>
        rw [List.dropWhile_cons_of_neg]
        simp [isSpace_of_isNameChar (hm c List.mem_cons_self)]
    rw [String.toList_ofList, hdrop l h, hdrop l.reverse (fun c hc => h c (List.mem_reverse.mp hc)),
      List.reverse_reverse]
  · unfold Go.byteLen
    rw [String.toList_ofList]
    have hmap : l.map Char.utf8Size = l.map fun _ => 1 :=
      List.map_congr_left fun c hc => utf8Size_of_isNameChar (h c hc)
    rw [hmap]
    simp

theorem cleanUsername_spec {s : String} (h : cleanUsername s ≠ "") :
    ∃ l : List Char, cleanUsername s = String.ofList l ∧ l ≠ [] ∧ l.length ≤ maxUsernameLength ∧
      ∀ c ∈ l, isNameChar c = true := by
  unfold cleanUsername at h ⊢
  dsimp only at h ⊢
  split at h
  · exact absurd rfl h
  rename_i hall
  rw [if_neg hall]
  refine ⟨_, rfl, ?_, ?_, ?_⟩
  · intro hnil
    rw [hnil] at hall
    exact hall rfl
  · rw [List.length_reverse]
    refine (List.dropWhile_suffix _).length_le.trans ?_
    rw [List.length_reverse]
    refine (List.dropWhile_suffix _).length_le.trans ?_
    exact List.length_take_le _ _
  · intro c hc
    have hc := (List.dropWhile_suffix _).subset (List.mem_reverse.mp hc)
    have hc := List.mem_of_mem_take ((List.dropWhile_suffix _).subset (List.mem_reverse.mp hc))
    obtain ⟨d, -, rfl⟩ := List.mem_map.mp hc
    split
    · assumption
    · rfl

theorem hexDigit_isNameChar (n : Nat) : isNameChar (Go.hexDigit n) = true := by
  have h : ∀ c ∈ "0123456789abcdef".toList, isNameChar c = true := List.all_eq_true.mp rfl
  unfold Go.hexDigit
  rw [List.getD_eq_getElem?_getD]
  cases hn : "0123456789abcdef".toList[n]? with
  | none => rfl
  | some c => exact h c (List.mem_of_getElem? hn)

/-- The name of a new user is one that the store takes. -/
theorem usernameFrom_valid (sha256 : String → Go.Bytes) (t : Token) (claim : String) :
    Go.trimSpace (usernameFrom sha256 t claim) = usernameFrom sha256 t claim ∧
      validUsername (usernameFrom sha256 t claim) = true := by
  obtain ⟨l, hl, hne, hlen, hchars⟩ : ∃ l : List Char, usernameFrom sha256 t claim = String.ofList l ∧
      l ≠ [] ∧ l.length ≤ maxUsernameLength ∧ ∀ c ∈ l, isNameChar c = true := by
    unfold usernameFrom
    dsimp only
    split
    · rename_i candidate hfind
      have hclean := List.find?_some hfind
      exact cleanUsername_spec (by simpa using hclean)
    · refine ⟨"user-".toList ++ (((sha256 (externalSubject t.issuer t.subject)).take 6).flatMap fun b =>
        [Go.hexDigit (b.toNat / 16), Go.hexDigit (b.toNat % 16)]), ?_, by simp, ?_, ?_⟩
      · unfold Go.hexEncode
        rw [String.ofList_append, String.ofList_toList]
      · have h6 := List.length_take_le 6 (sha256 (externalSubject t.issuer t.subject))
        rw [List.length_append, List.length_flatMap]
        simp only [List.length_cons, List.length_nil, List.map_const', List.sum_replicate_nat]
        have h5 : "user-".toList.length = 5 := rfl
        unfold maxUsernameLength
        omega
      · intro c hc
        rcases List.mem_append.mp hc with hc | hc
        · have h : ∀ c ∈ "user-".toList, isNameChar c = true := List.all_eq_true.mp rfl
          exact h c hc
        · obtain ⟨b, -, hc⟩ := List.mem_flatMap.mp hc
          simp only [List.mem_cons, List.not_mem_nil, or_false] at hc
          rcases hc with rfl | rfl <;> exact hexDigit_isNameChar _
  obtain ⟨htrim, hbytes⟩ := name_chars hchars
  rw [hl]
  refine ⟨htrim, ?_⟩
  unfold validUsername
  rw [hbytes, String.toList_ofList]
  have hne' : String.ofList l ≠ "" := by
    intro h
    exact hne (by simpa using congrArg String.toList h)
  simpa [hlen, hne'] using hchars

/-! ## Roles -/

theorem foldl_better_admin (groups : List String) (ms : List RoleMapping) (best : Option Role) :
    ms.foldl (OIDCPolicy.better groups) best = some .admin ↔
      best = some .admin ∨ ∃ m ∈ ms, m.group ≠ "" ∧ m.role = .admin ∧ m.group ∈ groups := by
  induction ms generalizing best with
  | nil => simp
  | cons m ms ih =>
    rw [List.foldl_cons, ih]
    have hm : OIDCPolicy.better groups best m = some .admin ↔
        best = some .admin ∨ (m.group ≠ "" ∧ m.role = .admin ∧ m.group ∈ groups) := by
      unfold OIDCPolicy.better
      split
      · rename_i h
        constructor
        · intro hr
          exact .inr ⟨h.1, Option.some.inj hr, h.2.2⟩
        · intro hr
          rcases hr with rfl | hr
          · cases hrole : m.role <;> simp [hrole, roleRank] at h
          · rw [hr.2.1]
      · rename_i h
        constructor
        · exact .inl
        · intro hr
          rcases hr with hr | ⟨h1, h2, h3⟩
          · exact hr
          · by_contra hne
            refine h ⟨h1, ?_, h3⟩
            rw [h2]
            cases best with
            | none => decide
            | some r => cases r <;> simp_all [roleRank]
    rw [hm]
    simp only [List.mem_cons, exists_eq_or_imp]
    exact or_assoc

theorem mapRole_admin_iff {p : OIDCPolicy} {groups : List String} : p.mapRole groups = some .admin ↔
      ∃ m ∈ p.roleMappings, m.group ≠ "" ∧ m.role = .admin ∧ m.group ∈ groups := by
  unfold OIDCPolicy.mapRole
  dsimp only
  split
  · rename_i h
    have hno := mt (foldl_better_admin groups p.roleMappings none).mpr
      (by simp [h.1])
    refine iff_of_false ?_ fun hm => hno (.inr hm)
    rcases h.2 with h2 | h2 <;> simp [h2]
  · rw [foldl_better_admin]
    simp

variable {o : OIDC}

theorem mem_oidcAdminGroups {g : String} :
    g ∈ oidcAdminGroups o ↔ ∃ m ∈ o.roleMappings, m.role = .admin ∧ m.group = g := by
  unfold oidcAdminGroups
  simp only [List.mem_map, List.mem_filter, decide_eq_true_eq]
  constructor
  · intro h
    obtain ⟨m, ⟨hm, hr⟩, hg⟩ := h
    exact ⟨m, hm, hr, m.trimmed ▸ hg⟩
  · intro h
    obtain ⟨m, hm, hr, hg⟩ := h
    exact ⟨m, ⟨hm, hr⟩, m.trimmed.trans hg⟩

theorem policy_admin_iff {desktop : Bool} {groups : List String} :
    (oidcPolicy o desktop).mapRole groups = some .admin ↔ ∃ g ∈ oidcAdminGroups o, g ∈ groups := by
  rw [mapRole_admin_iff]
  unfold oidcPolicy
  simp only [List.mem_map, mem_oidcAdminGroups]
  constructor
  · intro h
    obtain ⟨-, ⟨m, hm, rfl⟩, -, hr, hg⟩ := h
    exact ⟨m.group, ⟨m, hm, hr, rfl⟩, hg⟩
  · intro h
    obtain ⟨-, ⟨m, hm, hr, rfl⟩, hg⟩ := h
    exact ⟨_, ⟨m, hm, rfl⟩, m.named, hr, hg⟩

/-- What the guard compares, when it lets a change pass under which the admin role is mapped. -/
theorem not_grants {cur next : OIDC} (h : oidcGrantsAdmin cur next = false) (hon : next.enabled = true)
    {g : String} (hg : g ∈ oidcAdminGroups next) :
    cur.enabled = true ∧ cur.issuer = next.issuer ∧ cur.clientID = next.clientID ∧
      cur.groupsClaim = next.groupsClaim ∧ g ∈ oidcAdminGroups cur := by
  have hne : (oidcAdminGroups next).isEmpty = false := by
    rw [List.isEmpty_eq_false_iff]
    exact List.ne_nil_of_mem hg
  unfold oidcGrantsAdmin at h
  simp only [hon, hne, Bool.not_true, Bool.or_self, Bool.false_eq_true, if_false] at h
  split at h
  · cases h
  rename_i hsame
  simp only [Bool.or_eq_true, Bool.not_eq_true', decide_eq_true_eq, not_or, Bool.not_eq_false,
    ne_eq, not_not] at hsame
  obtain ⟨⟨⟨h1, h2⟩, h3⟩, h4⟩ := hsame
  refine ⟨h1, h2, h3, h4, ?_⟩
  rw [List.any_eq_false] at h
  simpa using h g hg

/-! ## Signing in as an administrator -/

/-- A sign-in finds its user, or may create it under a free name. -/
def Enters (users : List User) (subject newID name : String) (autoCreate : Bool) : Prop :=
  (∃ u, users.find? (·.subject = subject) = some u ∧ u.provider = .oidc) ∨
    (users.find? (·.subject = subject) = none ∧ autoCreate = true ∧
      ∀ x ∈ users, x.id ≠ newID ∧ sameName x.username name = false)

theorem signInExisting_admin {users : List User} {i : ExternalSignIn} {u : User}
    (hr : i.role = some .admin) (hc : i.roleOnCreate = false) :
    (signInExisting users i u).user.role = .admin := by
  unfold signInExisting
  simp only [hr, hc, Bool.false_eq_true, if_false]
  by_cases h : u.role = .admin
  · rw [if_pos h]
    exact h
  · have hk : keepsRole users i u = false := by simp [keepsRole, h]
    rw [if_neg h, hk]
    rfl

/-- A sign-in with the admin role succeeds exactly when it finds or may create its user, who then has
it. -/
theorem signInExternalUser_admin (users : List User) {i : ExternalSignIn} (hs : i.subject ≠ "")
    (hr : i.role = some .admin) (hc : i.roleOnCreate = false) :
    ((∃ r, signInExternalUser users i = .ok r) ↔
      Enters users i.subject i.newUserID i.username i.autoCreate) ∧
    ∀ r, signInExternalUser users i = .ok r → r.1.user.role = .admin := by
  unfold signInExternalUser Enters
  rw [if_neg (by simp [hs, hr])]
  cases hfind : users.find? (·.subject = i.subject) with
  | none =>
    simp only [hr, reduceCtorEq, false_and, exists_false, true_and, false_or]
    cases ha : i.autoCreate with
    | false => simp
    | true =>
      have hsub : ∀ x ∈ users, x.subject ≠ i.subject := by simpa using hfind
      simp only [Bool.not_true, Bool.false_eq_true, if_false, true_and]
      by_cases hany : ∀ x ∈ users, x.id ≠ i.newUserID ∧ sameName x.username i.username = false
      · have hins : insertUser users (newExternalUser i .admin) =
            some (users ++ [newExternalUser i .admin]) := by
          unfold insertUser
          rw [if_neg]
          simp only [List.any_eq_true, not_exists, not_and, Bool.or_eq_true, decide_eq_true_eq,
            Bool.and_eq_true]
          intro x hx
          simp [newExternalUser, hany x hx, hsub x hx]
        simp only [hins, Except.ok.injEq, exists_eq', true_iff]
        refine ⟨hany, fun r hr => ?_⟩
        rw [← hr]
        rfl
      · have hins : insertUser users (newExternalUser i .admin) = none := by
          unfold insertUser
          rw [if_pos]
          simp only [not_forall] at hany
          obtain ⟨x, hx, hany⟩ := hany
          refine List.any_eq_true.mpr ⟨x, hx, ?_⟩
          simp only [newExternalUser]
          by_cases h1 : x.id = i.newUserID
          · simp [h1]
          · have : sameName x.username i.username = true := by simpa [h1] using hany
            simp [this]
        simp [hins, hany]
  | some u =>
    simp only [Option.some.injEq, exists_eq_left', reduceCtorEq, false_and, or_false]
    by_cases hp : u.provider = .oidc
    · simp only [hp, ne_eq, not_true_eq_false, if_false, Except.ok.injEq, exists_eq', true_and]
      intro r hr'
      rw [← hr']
      exact signInExisting_admin hr hc
    · simp [hp]

@[simp] theorem identityFrom_username {sha256 : String → Go.Bytes} {t : Token} :
    (identityFrom sha256 t o).username = usernameFrom sha256 t o.usernameClaim := by
  simp only [identityFrom]

@[simp] theorem identityFrom_groups {sha256 : String → Go.Bytes} {t : Token} :
    (identityFrom sha256 t o).groups = groupsAt t.claims o.groupsClaim := by
  simp only [identityFrom]

theorem complete_congr {a b : ExternalIdentity} (h1 : a.issuer = b.issuer)
    (h2 : a.subject = b.subject) : a.complete = b.complete := by
  unfold ExternalIdentity.complete
  rw [h1, h2]

theorem oidcPolicy_isEmpty {desktop : Bool} :
    (oidcPolicy o desktop).roleMappings.isEmpty = o.roleMappings.isEmpty := by
  simp [oidcPolicy]

/-- What the store is asked for a token. -/
abbrev asked (env : SignInEnv) (o : OIDC) (t : Token) (newID : String) : ExternalSignIn :=
  externalSignIn env (oidcPolicy o env.desktop) (identityFrom env.sha256 t o) newID

/-- The role that the groups of a token give. -/
abbrev roleOf (env : SignInEnv) (o : OIDC) (t : Token) : Option Role :=
  (oidcPolicy o env.desktop).mapRole (groupsAt t.claims o.groupsClaim)

theorem asked_roleOnCreate {env : SignInEnv} {t : Token} {newID : String} :
    (asked env o t newID).roleOnCreate = o.roleMappings.isEmpty :=
  oidcPolicy_isEmpty

theorem asked_username {env : SignInEnv} {t : Token} {newID : String} :
    (asked env o t newID).username = usernameFrom env.sha256 t o.usernameClaim := by
  unfold asked externalSignIn
  rw [identityFrom_username]
  exact (usernameFrom_valid env.sha256 t o.usernameClaim).1

/-- The checks of a sign-in before the store is asked. -/
structure Passes (env : SignInEnv) (o : OIDC) (t : Token) : Prop where
  issuer : t.issuer = o.issuer
  client : t.clientID = o.clientID
  enabled : (oidcPolicy o env.desktop).enabled = true
  complete : (identityFrom env.sha256 t o).complete = true
  email : (oidcPolicy o env.desktop).emailDomainAllowed env.toLower (identityFrom env.sha256 t o).email
    (identityFrom env.sha256 t o).emailVerified = true
  role : ¬(roleOf env o t = none ∧ o.roleMappings.isEmpty = false)
  store : env.storeFails = false
  session : env.sessionFails = false

section SignIn

variable {env : SignInEnv} {o : OIDC} {users : List User} {t : Token} {r : OIDCLogin × List User}

theorem signIn_of_passes (h : Passes env o t) {newID : String} (hid : env.newID = some newID)
    {p : ExternalSignInResult × List User}
    (hs : signInExternalUser users (asked env o t newID) = .ok p) :
    signIn env o users t = .ok (oidcLogin p.1 (roleOf env o t), p.2) := by
  obtain ⟨htrim, hvalid⟩ := usernameFrom_valid env.sha256 t o.usernameClaim
  have hname : validUsername (Go.trimSpace (identityFrom env.sha256 t o).username) = true := by
    rw [identityFrom_username, htrim]
    exact hvalid
  have hrole : ¬((oidcPolicy o env.desktop).mapRole (identityFrom env.sha256 t o).groups = none ∧
      (!(oidcPolicy o env.desktop).roleMappings.isEmpty) = true) := by
    simpa [oidcPolicy_isEmpty] using h.role
  unfold signIn loginOIDC
  rw [if_neg (by simp [h.issuer, h.client]), if_neg (by simp [h.enabled]),
    if_neg (by simp [h.complete]), if_neg (by simp [h.email])]
  dsimp only
  rw [if_neg hrole, if_neg (by rw [hname]; decide), hid]
  dsimp only
  rw [if_neg (by simp [h.store]), hs]
  simp [h.session]

/-- A sign-in succeeds only if it passes the checks and the store lets it in. -/
theorem signIn_ok (h : signIn env o users t = .ok r) : Passes env o t ∧ ∃ newID p,
    env.newID = some newID ∧ signInExternalUser users (asked env o t newID) = .ok p ∧
      r = (oidcLogin p.1 (roleOf env o t), p.2) := by
  revert h
  fun_cases signIn env o users t <;> intro h
  · cases h
  rename_i hsame
  simp only [ne_eq, not_or, not_not] at hsame
  revert h
  fun_cases loginOIDC env (oidcPolicy o env.desktop) users (identityFrom env.sha256 t o) <;>
    intro h <;> cases h
  rename_i hon hcomplete hemail role hrole hname newID hid hstore res users' hs hsession
  refine ⟨⟨hsame.1, hsame.2, by simpa using hon, by simpa using hcomplete,
    by simpa using hemail, ?_, by simpa using hstore, by simpa using hsession⟩, newID, _, hid, hs, rfl⟩
  simpa [role, oidcPolicy_isEmpty] using hrole

/-- An identity whose groups give the admin role signs in with it exactly when the checks pass and the
store finds or may create its user. -/
theorem signIn_admin_iff (users : List User)
    (hadmin : roleOf env o t = some .admin) : ((∃ r, signIn env o users t = .ok r) ↔
      Passes env o t ∧ ∃ newID, env.newID = some newID ∧
        Enters users (externalSubject t.issuer t.subject) newID
          (usernameFrom env.sha256 t o.usernameClaim) o.autoCreateUsers) ∧
      ∀ r, signIn env o users t = .ok r → r.1.roleTo = .admin := by
  have hmapped : o.roleMappings.isEmpty = false := by
    obtain ⟨g, hg, -⟩ := policy_admin_iff.mp hadmin
    obtain ⟨m, hm, -⟩ := mem_oidcAdminGroups.mp hg
    rw [List.isEmpty_eq_false_iff]
    exact List.ne_nil_of_mem hm
  have hstore : ∀ newID, ((∃ r, signInExternalUser users (asked env o t newID) = .ok r) ↔
        Enters users (externalSubject t.issuer t.subject) newID
          (usernameFrom env.sha256 t o.usernameClaim) o.autoCreateUsers) ∧
      ∀ r, signInExternalUser users (asked env o t newID) = .ok r → r.1.user.role = .admin := by
    intro newID
    have hsubject : externalSubject t.issuer t.subject ≠ "" := by
      intro h
      simpa [externalSubject] using congrArg String.toList h
    have h := signInExternalUser_admin users (i := asked env o t newID)
    rw [asked_roleOnCreate, asked_username] at h
    exact h hsubject hadmin hmapped
  refine ⟨⟨fun h => ?_, fun h => ?_⟩, fun r h => ?_⟩
  · obtain ⟨r, h⟩ := h
    obtain ⟨hp, newID, p, hid, hs, -⟩ := signIn_ok h
    exact ⟨hp, newID, hid, (hstore newID).1.mp ⟨p, hs⟩⟩
  · obtain ⟨hp, newID, hid, henters⟩ := h
    obtain ⟨p, hs⟩ := (hstore newID).1.mpr henters
    exact ⟨_, signIn_of_passes hp hid hs⟩
  · obtain ⟨-, newID, p, -, hs, rfl⟩ := signIn_ok h
    exact (hstore newID).2 p hs

theorem signIn_mappedRole (h : signIn env o users t = .ok r) : r.1.mappedRole = roleOf env o t := by
  obtain ⟨-, newID, p, -, -, rfl⟩ := signIn_ok h
  rfl

end SignIn

/-! ## Changes that are not held -/

/-- The settings let the identity in: its email passes the filter, and it has a user or gets one under a
free name. -/
def LetsIn (env : SignInEnv) (o : OIDC) (users : List User) (t : Token) : Prop :=
  (oidcPolicy o env.desktop).emailDomainAllowed env.toLower (identityFrom env.sha256 t o).email
      (identityFrom env.sha256 t o).emailVerified = true ∧
    ((∃ u ∈ users, u.subject = externalSubject t.issuer t.subject) ∨
      (o.autoCreateUsers = true ∧
        ∀ u ∈ users, sameName u.username (usernameFrom env.sha256 t o.usernameClaim) = false))

/-- **An identity that the provider makes an administrator under settings that were not held was one
before, exactly when the settings of before let it in.** -/
theorem admin_signIn_iff {env : SignInEnv} {cur next : OIDC} {users : List User} {t : Token}
    {r : OIDCLogin × List User} (hheld : oidcGrantsAdmin cur next = false)
    (hnext : signIn env next users t = .ok r) (hadmin : r.1.mappedRole = some .admin) :
    (∃ r', signIn env cur users t = .ok r' ∧ r'.1.roleTo = .admin) ↔ LetsIn env cur users t := by
  rw [signIn_mappedRole hnext] at hadmin
  obtain ⟨hp, newID, hid, henters⟩ := (signIn_admin_iff users hadmin).1.mp ⟨r, hnext⟩
  -- the guard compared the settings that decide the role
  have hon : next.enabled = true ∧ env.desktop = false := by simpa [oidcPolicy] using hp.enabled
  obtain ⟨g, hg, hmem⟩ := policy_admin_iff.mp hadmin
  obtain ⟨henabled, hissuer, hclient, hclaim, hcur⟩ := not_grants hheld hon.1 hg
  have hmaps : roleOf env cur t = some .admin :=
    policy_admin_iff.mpr ⟨g, hcur, hclaim ▸ hmem⟩
  obtain ⟨hiff, hrole⟩ := signIn_admin_iff users hmaps
  have hsame : (∃ r', signIn env cur users t = .ok r' ∧ r'.1.roleTo = .admin) ↔
      ∃ r', signIn env cur users t = .ok r' :=
    exists_congr fun r' => and_iff_left_of_imp (hrole r')
  rw [hsame, hiff]
  have hfind : (∃ u ∈ users, u.subject = externalSubject t.issuer t.subject) ↔
      ∃ u, users.find? (·.subject = externalSubject t.issuer t.subject) = some u := by
    rw [← Option.isSome_iff_exists, List.find?_isSome]
    simp
  unfold LetsIn
  rw [hfind]
  constructor
  · intro h
    obtain ⟨hpass, id, -, hent⟩ := h
    refine ⟨hpass.email, ?_⟩
    rcases hent with ⟨u, hu, -⟩ | ⟨-, hauto, hfree⟩
    · exact .inl ⟨u, hu⟩
    · exact .inr ⟨hauto, fun u hu => (hfree u hu).2⟩
  · intro h
    obtain ⟨hemail, hlet⟩ := h
    refine ⟨⟨hp.issuer.trans hissuer.symm, hp.client.trans hclient.symm, ?_, ?_, hemail, ?_, hp.store,
      hp.session⟩, newID, hid, ?_⟩
    · simp [oidcPolicy, henabled, hon.2]
    · rw [← hp.complete]
      exact complete_congr (by simp only [identityFrom]) (by simp only [identityFrom])
    · rw [hmaps]
      simp
    · rcases henters with hu | ⟨hnone, -, hfree⟩
      · exact .inl hu
      · rcases hlet with ⟨u, hu⟩ | ⟨hauto, hname⟩
        · rw [hnone] at hu
          cases hu
        · exact .inr ⟨hnone, hauto, fun u hu => ⟨(hfree u hu).1, hname u hu⟩⟩

/-! ## A wider domain filter -/

/-- Everyone in the group `dba` is an administrator. -/
def dbaAdmins (domains : List String) : OIDC where
  enabled := true
  issuer := "https://idp"
  clientID := "mr"
  roleMappings := [⟨"dba", .admin, everyConnection, by decide, by decide⟩]
  allowedEmailDomains := domains

/-- A member of `dba` with an email of another company. -/
def contractor : Token where
  issuer := "https://idp"
  clientID := "mr"
  subject := "c1"
  claims := [("email", .str "eve@other.com"), ("email_verified", .bool true), ("groups", .arr [.str "dba"])]

def plainEnv : SignInEnv where
  toLower := id
  sha256 := fun _ => []
  newID := some "usr_1"

theorem admin_signIn_same : ∃ r, signIn plainEnv (dbaAdmins []) [] contractor = .ok r ∧
    ((∃ r', signIn plainEnv (dbaAdmins ["other.com"]) [] contractor = .ok r' ∧ r'.1.roleTo = .admin) ↔
      LetsIn plainEnv (dbaAdmins ["other.com"]) [] contractor) := by
  have h : ∃ r, signIn plainEnv (dbaAdmins []) [] contractor = .ok r ∧
      r.1.mappedRole = some .admin := ⟨_, rfl, rfl⟩
  obtain ⟨r, hr, hadmin⟩ := h
  exact ⟨r, hr, admin_signIn_iff (by decide) hr hadmin⟩

/-- **Dropping the email filter makes an administrator and is not held**: the filter refused the identity
before. -/
theorem domain_change_grants_admin :
    oidcGrantsAdmin (dbaAdmins ["corp.com"]) (dbaAdmins []) = false ∧
    (∃ r, signIn plainEnv (dbaAdmins []) [] contractor = .ok r ∧ r.1.mappedRole = some .admin ∧
      r.1.roleTo = .admin) ∧
    ∀ r, signIn plainEnv (dbaAdmins ["corp.com"]) [] contractor ≠ .ok r := by
  refine ⟨by decide, ⟨_, rfl, rfl, rfl⟩, fun r h => ?_⟩
  cases h

/-! ## Changes that take the admin role away -/

/-- What the guard compares, when it lets a change pass. -/
theorem not_revokes {cur next : OIDC} {oidcAdmins : Bool}
    (h : oidcRevokesAdmin cur next oidcAdmins = false) :
    (∀ g ∈ oidcAdminGroups cur, cur.groupsClaim = next.groupsClaim ∧ g ∈ oidcAdminGroups next) ∧
      (oidcAdmins = true → cur.roleMappings.isEmpty = true → next.roleMappings.isEmpty = true) := by
  simp only [oidcRevokesAdmin, Bool.or_eq_false_iff] at h
  obtain ⟨⟨hsame, hgroups⟩, hempty⟩ := h
  refine ⟨fun g hg => ⟨?_, by simpa using List.any_eq_false.mp hgroups g hg⟩,
    fun hadmins hcur => by simpa [hadmins, hcur] using hempty⟩
  have hne : (oidcAdminGroups cur).isEmpty = false := by simpa using List.ne_nil_of_mem hg
  simp only [hne, Bool.not_false, Bool.true_and, Bool.or_eq_false_iff] at hsame
  simpa using hsame.2

section Revoke

variable {env : SignInEnv} {o cur next : OIDC} {users : List User} {t : Token} {r r' : OIDCLogin × List User}
  {i : ExternalSignIn} {p : ExternalSignInResult × List User}

theorem signInExisting_role (users : List User) (i : ExternalSignIn) (u : User) :
    (signInExisting users i u).user.role =
      if i.roleOnCreate = true ∨ keepsRole users i u = true then u.role else i.role.getD u.role := by
  unfold signInExisting
  cases i.roleOnCreate with
  | true => simp
  | false =>
    rcases i.role with _ | role
    · simp
    · by_cases h : u.role = role
      · simp [h]
      · cases hk : keepsRole users i u <;> simp [h]

/-- Whom the role of a sign-in does not make an administrator is one afterwards if they were one and keep
the role. -/
theorem signInExternalUser_keeps_iff (h : signInExternalUser users i = .ok p) (hrole : i.role ≠ some .admin) :
    p.1.user.role = .admin ↔
      ∃ u, users.find? (·.subject = i.subject) = some u ∧ u.provider = .oidc ∧ u.role = .admin ∧
        (i.roleOnCreate = true ∨ i.keepAdmin = true ∨ countAdmins users ≤ 1) := by
  revert h
  fun_cases signInExternalUser users i <;> intro h <;> cases h
  · rename_i hnone _ role hsome _ _
    simp only [hnone, reduceCtorEq, false_and, exists_false, iff_false]
    exact fun hadmin => hrole (hsome.trans (congrArg some hadmin))
  · rename_i hvalid u hu hprov res
    simp only [hu, Option.some.injEq, exists_eq_left']
    rw [signInExisting_role, not_not.mp hprov]
    simp only [true_and]
    split
    · rename_i hkept
      exact ⟨fun h => ⟨h, hkept.imp_right fun hk => by simpa [keepsRole, h] using hk⟩, And.left⟩
    · rename_i hkept
      refine ⟨fun h => ?_, fun h => absurd (h.2.imp_right fun hk => by simpa [keepsRole, h.1] using hk) hkept⟩
      rcases hi : i.role with _ | role
      · exact absurd (.inl (by simpa [hi] using (not_or.mp hvalid).2)) hkept
      · rw [hi] at h hrole
        exact absurd (congrArg some h) hrole

/-- The identity has a user who is an administrator and keeps the role, as nothing is mapped, under the
two-person rule, or as the last. -/
def KeepsAdmin (env : SignInEnv) (o : OIDC) (users : List User) (t : Token) : Prop :=
  ∃ u, users.find? (·.subject = externalSubject t.issuer t.subject) = some u ∧ u.provider = .oidc ∧
    u.role = .admin ∧ (o.roleMappings.isEmpty = true ∨ env.holdsAdminGrant = true ∨ countAdmins users ≤ 1)

theorem signIn_keeps_iff (h : signIn env o users t = .ok r) (hrole : roleOf env o t ≠ some .admin) :
    r.1.roleTo = .admin ↔ KeepsAdmin env o users t := by
  obtain ⟨hp, newID, p, hid, hs, rfl⟩ := signIn_ok h
  have hiff := signInExternalUser_keeps_iff hs hrole
  rwa [asked_roleOnCreate] at hiff

/-- **A change of the settings that is not held takes the admin role from nobody**: who signs in as an
administrator under the settings of before, and signs in under the new ones, is still one. -/
theorem admins_kept (hheld : oidcRevokesAdmin cur next (hasOIDCAdmins users) = false)
    (hcur : signIn env cur users t = .ok r) (hadmin : r.1.roleTo = .admin)
    (hnext : signIn env next users t = .ok r') : r'.1.roleTo = .admin := by
  obtain ⟨hgroups, hempty⟩ := not_revokes hheld
  by_cases hmaps : roleOf env next t = some .admin
  · exact (signIn_admin_iff users hmaps).2 r' hnext
  -- so the groups did not give the role before either, and it was kept
  have hnot : roleOf env cur t ≠ some .admin := by
    intro h
    obtain ⟨g, hg, hmem⟩ := policy_admin_iff.mp h
    exact hmaps (policy_admin_iff.mpr ⟨g, (hgroups g hg).2, (hgroups g hg).1 ▸ hmem⟩)
  rw [signIn_keeps_iff hcur hnot] at hadmin
  rw [signIn_keeps_iff hnext hmaps]
  obtain ⟨u, hu, hprov, hadm, hkept⟩ := hadmin
  refine ⟨u, hu, hprov, hadm, hkept.imp_left (hempty ?_)⟩
  exact List.any_eq_true.mpr ⟨u, List.mem_of_find?_eq_some hu, by simp [hadm, hprov]⟩

/-- **Who is an administrator after single sign-on**: those in a group that is mapped to the role, and
those who were one before and keep it. -/
theorem admin_after_signIn_iff (h : signIn env o users t = .ok r) : r.1.roleTo = .admin ↔
    (∃ g ∈ oidcAdminGroups o, g ∈ groupsAt t.claims o.groupsClaim) ∨ KeepsAdmin env o users t := by
  by_cases hmaps : roleOf env o t = some .admin
  · exact iff_of_true ((signIn_admin_iff users hmaps).2 r h) (.inl (policy_admin_iff.mp hmaps))
  · rw [signIn_keeps_iff h hmaps]
    exact (or_iff_right fun hg => hmaps (policy_admin_iff.mpr hg)).symm

end Revoke

theorem admin_after_signIn_dba : ∃ r, signIn plainEnv (dbaAdmins []) [] contractor = .ok r ∧
    r.1.roleTo = .admin := by
  have h : ∃ r, signIn plainEnv (dbaAdmins []) [] contractor = .ok r := ⟨_, rfl⟩
  obtain ⟨r, hr⟩ := h
  exact ⟨r, hr, (admin_after_signIn_iff hr).mpr (.inl ⟨"dba", by decide, by decide⟩)⟩

/-- A filter on the domain that the identity passes. -/
theorem admins_kept_filter : ∃ r', signIn plainEnv (dbaAdmins ["other.com"]) [] contractor = .ok r' ∧
    r'.1.roleTo = .admin := by
  have hcur : ∃ r, signIn plainEnv (dbaAdmins []) [] contractor = .ok r ∧ r.1.roleTo = .admin := ⟨_, rfl, rfl⟩
  have hnext : ∃ r', signIn plainEnv (dbaAdmins ["other.com"]) [] contractor = .ok r' := ⟨_, rfl⟩
  obtain ⟨r, hr, hadmin⟩ := hcur
  obtain ⟨r', hr'⟩ := hnext
  exact ⟨r', hr', admins_kept (by decide) hr hadmin hr'⟩

end MongoRescue.Auth.Proof
