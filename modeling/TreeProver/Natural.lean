/-!
# Powers of natural numbers

Other libraries bring powers of their own, for every structure with a multiplication. Powers of
natural numbers are those of the core library here, so that a definition means the same whatever
else is in scope; with a literal exponent this is said by its type, as in `2 ^ (64 : Nat)`.
-/

attribute [instance (high)] instPowNat
