import ZetaValues.Binomial
import ZetaValues.DensePoly.Text
import ZetaValues.DensePoly.Shift
import ZetaValues.Exact.Division
import ZetaValues.Fresh
import ZetaValues.Session.Request
import ZetaValues.Proofs.Session.Caching
import ZetaValues.Proofs.Character.Parity
import ZetaValues.Proofs.TrialDivision
import ZetaValues.Proofs.Discriminant
import ZetaValues.Proofs.Bernoulli.Multiplication
import ZetaValues.Proofs.Character.Primitive
import ZetaValues.Proofs.Bernoulli.EulerFactor
import ZetaValues.Proofs.Character.Imprimitive
import ZetaValues.Proofs.Session.Refusals
import ZetaValues.Proofs.Session.Growth
import ZetaValues.Proofs.Residue.PrimeFactors
import ZetaValues.Proofs.Character.ClassNumber
import ZetaValues.Proofs.Session.PowerSum
import ZetaValues.Proofs.Character.HalfRange
import ZetaValues.Proofs.Character.Principal
import ZetaValues.Proofs.Conductor
import ZetaValues.Proofs.Session.LValues
import ZetaValues.Proofs.DensePoly.Shift
import ZetaValues.Proofs.Bernoulli.Appell
import ZetaValues.Proofs.DensePoly.Text
