import RrlwrKem.Library.BinomialQuotient
import RrlwrKem.Library.Residue
import RrlwrKem.Library.BitStream
import RrlwrKem.Library.ArrayPolynomial
import RrlwrKem.Library.Checked
import RrlwrKem.Library.CArith
import RrlwrKem.Parameters
import RrlwrKem.Memory
import RrlwrKem.Arith.Karatsuba
import RrlwrKem.Arith.ToomCook
import RrlwrKem.Arith.Packing
import RrlwrKem.Arith.WireFormat
import RrlwrKem.Arith.Rounding
import RrlwrKem.Arith.MessageCodec
import RrlwrKem.Arith.PackingBuilds
import RrlwrKem.Arith.Ring
import RrlwrKem.Arith.FusedPaths
import RrlwrKem.Arith.Uniform
import RrlwrKem.Arith.Window
import RrlwrKem.Arith.Sampling
import RrlwrKem.Pke
import RrlwrKem.DecryptionMargin
import RrlwrKem.Kem
import RrlwrKem.MessageMask
import RrlwrKem.Arith.PolyOperations
import RrlwrKem.Library.KeccakF
import RrlwrKem.Library.Sponge
import RrlwrKem.Library.BigEndian
import RrlwrKem.Library.HashGenerator
import RrlwrKem.Library.Machine
import RrlwrKem.Library.Region
import RrlwrKem.Utils.KeccakF1600
import RrlwrKem.Utils.KeccakSponge
import RrlwrKem.Utils.Fips202
import RrlwrKem.Utils.Drng
import RrlwrKem.Session
import RrlwrKem.Program
import RrlwrKem.SharedMemory
import RrlwrKem.Kat
import RrlwrKem.Test.UnitTests
import RrlwrKem.Test.KemTests
