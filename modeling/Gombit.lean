import Gombit.Jobs.Uniqueness
import Gombit.Jobs.Attempts
import Gombit.Jobs.Backoff
import Gombit.Jobs.Once
import Gombit.Auth.Reuse
import Gombit.Auth.CutOff
import Gombit.Auth.Links
import Gombit.Migrations.Widening
import Gombit.Storage.SignedURLs
import Gombit.Resources.Tags
import Gombit.Config.TrustedProxies
import Gombit.Jobs.Stats
import Gombit.Storage.Upload
import Gombit.Jobs.FailedPages
import Gombit.Cache.Refinement
import Gombit.Admin.Versioned
import Gombit.Resources.Decimals
import Gombit.Storage.ExpectSize
import Gombit.Auth.OtherSessions
import Gombit.Auth.RetryAfter
import Gombit.Auth.Places
import Gombit.Admin.Patches
import Gombit.Database.Search
import Gombit.Storage.Filenames
import Gombit.Migrations.Versions
import Gombit.Migrations.ConstraintRenames
import Gombit.Migrations.Statements
import Gombit.Migrations.Gate
